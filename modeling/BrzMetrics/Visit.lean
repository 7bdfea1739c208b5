/-
The other way to read a registry: `visit` of `src/src/lib.rs`.

`visit` calls back for every exported view of a timing slot with a snapshot of
its counters. A reader merges the slots of a view first. The two agree on what
they report for a type and a name: both count a slot once for each of its views
that has them (`callbacks_eq_views`), and the rest is double counting.
-/
import BrzMetrics.ApiCount
import BrzMetrics.Recording

set_option autoImplicit false

namespace BrzMetrics

open SortBy TextFormat

/-! ## Visiting -/

/-- `Registry::visit`: every entry with a snapshot. Entry number `i` is read in the memories
`env i`. -/
def Registry.visit (env : ℕ → ℕ → Memory) (self : Registry) :
    Option (List (MetricMeta × MetricSnapshot)) := do
  let entries ← self.for_each_meta
  return entries.mapIdx (fun i entry => (entry, snapshot (env i) entry.item))

/-- The calls that `visit` makes for one entry. -/
def callbacks (entry : MetricMeta) (snapshot : MetricSnapshot) :
    List (String × String × MetricSnapshot) :=
  match entry.profile with
  | .Single name kind =>
    let (metric_type, _) := kind.output
    [(name, metric_type, snapshot)]
  | .Resource labels kind => [(labels.name, kind.output.1, snapshot)]
  | .Fanout plan => plan.outputs.map (fun output => (output.name, output.metric_type, snapshot))

/-- `visit`: the calls of the closure, in order. -/
def visit (env : ℕ → ℕ → Memory) (registry : Registry) :
    Option (List (String × String × MetricSnapshot)) := do
  let visited ← registry.visit env
  return visited.flatMap (fun (entry, snapshot) => callbacks entry snapshot)

/-- The field of a snapshot that a counter is exported from. -/
def MetricSnapshot.of (self : MetricSnapshot) : Counter → UInt64
  | .Total => self.total
  | .Failure => self.failure
  | .Slow => self.slow
  | .Elapsed => self.elapsed_us
  | .FailureElapsed => self.failure_elapsed_us
  | .SlowElapsed => self.slow_elapsed_us

/-- A snapshot of a slot at rest has the values that the counters read. -/
theorem snapshot_of (memory : Memory) (item : ItemPtr) (counter : Counter) :
    (snapshot (fun _ => memory) item).of counter = counter.read memory item := by
  cases counter <;> rfl

/-- With the counters at rest. -/
theorem visit_eq {r : Registry} {timing : List MetricMeta} (h : r.for_each_meta = some timing)
    (memory : Memory) :
    visit (fun _ _ => memory) r
      = some (timing.flatMap (fun m => callbacks m (snapshot (fun _ => memory) m.item))) := by
  have hmap : timing.mapIdx (fun _ entry => (entry, snapshot (fun _ => memory) entry.item))
      = timing.map (fun entry => (entry, snapshot (fun _ => memory) entry.item)) := by
    refine List.ext_getElem (by simp) (fun i hi hi' => ?_)
    simp
  rw [visit, Registry.visit, h]
  simp only [Option.bind_eq_bind, Option.bind_some, Option.pure_def, hmap, List.flatMap_map]

/-! ## Callbacks and views -/

/-- The families in which the two ways of reading agree for a type. Responses and timeouts are
exported as `API` but visited under types of their own. -/
def Compared (metric_type : String) (family : Family) : Prop :=
  family.val < 6 ∧ metric_type ≠ "API_RESPONSE" ∧ metric_type ≠ "APITO"
    ∧ (metric_type = "API" → family.val ≠ 0)

/-- A view has samples of a type and a name in a family. -/
def View.Shows (metric_type name : String) (family : Family) (self : View) : Prop :=
  self.kind.supports family.val = true ∧ self.output.metric_type = metric_type
    ∧ self.output.name = name

instance (metric_type name : String) (family : Family) :
    DecidablePred (View.Shows metric_type name family) :=
  fun _ => inferInstanceAs (Decidable (_ ∧ _ ∧ _))

section Compare

variable {metric_type name : String} {family : Family}

/-- A typed registration is visited under the type and name that it is exported with. -/
theorem typed_view_shows (h : Compared metric_type family) (kind : MetricType) (name' : String)
    (resource : Option ResourceLabels) :
    (typed_view kind name' resource).Shows metric_type name family
      ↔ name' = name ∧ kind.output.1 = metric_type := by
  obtain ⟨hfamily, hresponse, htimeout, hapi⟩ := h
  cases hkind : kind.response with
  | some k =>
    -- responses are only in the first family, and only as `API`
    have hview : typed_view kind name' resource = ⟨⟨"API", name', resource⟩, k⟩ := by
      rw [typed_view, hkind]
      rfl
    rw [hview]
    refine iff_of_false (fun hshows => ?_) (fun hsame => ?_)
    · have hzero : family.val = 0 := by
        have hsupports := hshows.1
        cases kind <;> simp [MetricType.response] at hkind <;> subst hkind <;>
          simpa [SourceKind.supports] using hsupports
      exact hapi hshows.2.1.symm hzero
    · cases kind <;> simp [MetricType.response] at hkind
      · exact hresponse hsame.2.symm
      · exact htimeout hsame.2.symm
  | none =>
    have hview : typed_view kind name' resource = ⟨⟨kind.output.1, name', resource⟩,
        if kind = .ApiAll then .ApiSummary else .Full⟩ := by
      rw [typed_view, hkind]
      rfl
    rw [hview]
    constructor
    · exact fun hshows => ⟨hshows.2.2, hshows.2.1⟩
    · rintro ⟨rfl, hsame⟩
      refine ⟨?_, hsame, rfl⟩
      by_cases hall : kind = .ApiAll
      · subst hall
        have hne := hapi hsame.symm
        simp only [if_true, SourceKind.supports, Bool.and_eq_true, decide_eq_true_eq]
        omega
      · simpa [if_neg hall, SourceKind.supports] using hfamily

/-- The same for a view of a profile. -/
theorem profile_view_shows (h : Compared metric_type family) (output : ProfileOutput) :
    (⟨output, profile_kind output⟩ : View).Shows metric_type name family
      ↔ output.name = name ∧ output.metric_type = metric_type := by
  obtain ⟨hfamily, -, -, hapi⟩ := h
  constructor
  · exact fun hshows => ⟨hshows.2.2, hshows.2.1⟩
  · rintro ⟨rfl, hsame⟩
    refine ⟨?_, hsame, rfl⟩
    unfold profile_kind
    split_ifs with htype
    · have hne := hapi (hsame.symm.trans htype)
      simp only [SourceKind.supports, Bool.and_eq_true, decide_eq_true_eq]
      omega
    · simpa [SourceKind.supports] using hfamily

/-- An entry is called back for as often as its views show a type and a name. -/
theorem callbacks_eq_views (h : Compared metric_type family) {m : MetricMeta}
    (hplain : ∀ plan, m.profile = .Fanout plan → plan.aggregate = none)
    (snapshot : MetricSnapshot) :
    ((callbacks m snapshot).filter (fun c => c.1 = name ∧ c.2.1 = metric_type)).length
      = (m.views.filter (View.Shows metric_type name family)).length := by
  obtain ⟨item, profile⟩ := m
  -- both lists have one element for each view
  have hlength : ∀ {α : Type} (l : List α) (p q : α → Prop) [DecidablePred p] [DecidablePred q],
      (∀ a, p a ↔ q a) → (l.filter p).length = (l.filter q).length := by
    intro α l p q _ _ hpq
    rw [List.filter_congr (fun a _ => decide_eq_decide.mpr (hpq a))]
  cases profile with
  | Single name' kind =>
    rw [MetricMeta.views_single]
    have hshows : (typed_view kind name' none).Shows metric_type name family ↔ _ :=
      typed_view_shows h kind name' none
    simp only [callbacks, List.filter_cons, List.filter_nil, hshows, decide_eq_true_eq]
    split_ifs <;> rfl
  | Resource labels kind =>
    rw [MetricMeta.views_resource]
    have hshows : (typed_view kind labels.name (some labels)).Shows metric_type name family ↔ _ :=
      typed_view_shows h kind labels.name (some labels)
    simp only [callbacks, List.filter_cons, List.filter_nil, hshows, decide_eq_true_eq]
    split_ifs <;> rfl
  | Fanout plan =>
    have hviews : (MetricMeta.mk item (.Fanout plan)).views
        = plan.outputs.map (fun output => ⟨output, profile_kind output⟩) := by
      rw [MetricMeta.views_fanout, hplain plan rfl, Option.toList_none, List.append_nil]
    rw [hviews, callbacks, List.filter_map, List.filter_map, List.length_map, List.length_map]
    exact hlength plan.outputs _ _ (fun output => (profile_view_shows h output).symm)

/-- Distinct outputs are distinct views. -/
theorem MetricMeta.views_nodup {m : MetricMeta} (hplain : ∀ plan, m.profile = .Fanout plan →
    plan.outputs.Nodup ∧ plan.aggregate = none) : m.views.Nodup := by
  obtain ⟨item, profile⟩ := m
  cases profile with
  | Single name kind => rw [views_single]; exact List.nodup_singleton _
  | Resource labels kind => rw [views_resource]; exact List.nodup_singleton _
  | Fanout plan =>
    obtain ⟨hnodup, haggregate⟩ := hplain plan rfl
    rw [views_fanout, haggregate, Option.toList_none, List.append_nil]
    exact hnodup.map (fun a b heq => congrArg View.output heq)

/-- What `visit` reports for an entry under a type and a name. -/
theorem sum_callbacks (h : Compared metric_type family) {m : MetricMeta}
    (hplain : ∀ plan, m.profile = .Fanout plan → plan.aggregate = none)
    (snapshot : MetricSnapshot) (counter : Counter) :
    (((callbacks m snapshot).filter (fun c => c.1 = name ∧ c.2.1 = metric_type)).map
        (fun c => (c.2.2.of counter).toNat)).sum
      = (m.views.filter (View.Shows metric_type name family)).length
          * (snapshot.of counter).toNat := by
  have hsame : ∀ c ∈ callbacks m snapshot, c.2.2 = snapshot := by
    intro c hc
    unfold callbacks at hc
    split at hc
    · rw [List.mem_singleton.mp hc]
    · rw [List.mem_singleton.mp hc]
    · obtain ⟨output, -, rfl⟩ := List.mem_map.mp hc
      rfl
  rw [← callbacks_eq_views h hplain snapshot, List.sum_eq_card_nsmul _ (snapshot.of counter).toNat,
    List.length_map, smul_eq_mul]
  intro x hx
  obtain ⟨c, hc, rfl⟩ := List.mem_map.mp hx
  rw [hsame c (List.mem_filter.mp hc).1]

end Compare

/-! ## Double counting -/

/-- Summing over the elements that each view selects counts an element once for each view that
selects it. -/
theorem sum_filter_swap {α β : Type} (V : List β) (l : List α) (R : α → β → Prop)
    [∀ a, DecidablePred (R a)] (c : α → ℕ) :
    (V.map (fun v => ((l.filter (fun a => R a v)).map c).sum)).sum
      = (l.map (fun a => (V.filter (R a)).length * c a)).sum := by
  induction l with
  | nil => simp
  | cons a l ih =>
    have hone : (V.map (fun v => if R a v then c a else 0)).sum
        = (V.filter (R a)).length * c a := by
      rw [sum_map_ite, List.map_const', List.sum_replicate, smul_eq_mul]
    have hsplit : ∀ v, (((a :: l).filter (fun a => R a v)).map c).sum
        = (if R a v then c a else 0) + ((l.filter (fun a => R a v)).map c).sum := by
      intro v
      by_cases hv : R a v
      · rw [List.filter_cons_of_pos (by simpa using hv), List.map_cons, List.sum_cons, if_pos hv]
      · rw [List.filter_cons_of_neg (by simpa using hv), if_neg hv, zero_add]
    simp only [hsplit]
    rw [List.sum_map_add, hone, ih, List.map_cons, List.sum_cons]

/-! ## The groups of a family -/

/-- The group of a line in a family. -/
def Line.group_in (family : Family) : Line → Option (View × List SourceItem)
  | .group family' view items => if family' = family then some (view, items) else none
  | .type _ _ | .state _ _ _ => none

/-- The lines of a family are its groups. -/
theorem exposition_groups (f64 : F64) (sources : List Source) (states : List StateSnapshot)
    (family : Family) :
    (exposition f64 sources states).filterMap (Line.group_in family)
      = family_groups sources family := by
  -- the part of another family has no group of this one
  have hpart : ∀ family' : Family,
      ((Line.type family'.name family'.mode
        :: (family_groups sources family').map (fun g => Line.group family' g.1 g.2)).filterMap
          (Line.group_in family))
      = if family' = family then family_groups sources family else [] := by
    intro family'
    rw [List.filterMap_cons_none rfl, List.filterMap_map]
    split_ifs with heq
    · subst heq
      rw [show Line.group_in family' ∘ (fun g : View × List SourceItem => Line.group family' g.1 g.2)
        = some from funext (fun g => if_pos rfl), List.filterMap_some]
    · exact List.filterMap_eq_nil_iff.mpr (fun g _ => if_neg heq)
  -- and there is one part for each family
  have hpick : ∀ l : List Family, l.Nodup → family ∈ l →
      l.flatMap (fun family' => if family' = family then family_groups sources family else [])
        = family_groups sources family := by
    intro l hl hmem
    obtain ⟨before, after, rfl⟩ := List.append_of_mem hmem
    have hne := List.nodup_middle.mp hl
    have hother : ∀ l' : List Family, (∀ a ∈ l', a ≠ family) →
        l'.flatMap (fun family' => if family' = family then family_groups sources family else [])
          = [] :=
      fun l' hl' => List.flatMap_eq_nil_iff.mpr (fun a ha => if_neg (hl' a ha))
    have hnot := (List.nodup_cons.mp hne).1
    rw [List.flatMap_append, List.flatMap_cons, if_pos rfl,
      hother before (fun a ha heq => hnot (heq ▸ List.mem_append_left _ ha)),
      hother after (fun a ha heq => hnot (heq ▸ List.mem_append_right _ ha)), List.nil_append,
      List.append_nil]
  have hstates : (state_type :: state_lines f64 states).filterMap (Line.group_in family) = [] := by
    refine List.filterMap_eq_nil_iff.mpr (fun line hline => ?_)
    rcases List.mem_cons.mp hline with rfl | hline
    · rfl
    · obtain ⟨snapshot, field, value, rfl⟩ := mem_state_lines hline
      rfl
  rw [exposition, parts_from_zero, List.filterMap_append, hstates, List.append_nil,
    List.filterMap_flatMap]
  simp only [hpart]
  exact hpick _ (List.nodup_finRange _) (List.mem_finRange family)

/-- No scalar slot has a view in a family that is compared. -/
theorem ScalarMeta.not_shows {metric_type name : String} {family : Family}
    (h : Compared metric_type family) (m : ScalarMeta) :
    ¬ m.view.Shows metric_type name family := by
  obtain ⟨hfamily, -, -, hapi⟩ := h
  rintro ⟨hsupports, htype, -⟩
  rcases m.view_cases with ⟨kind, -, hresponse, hview⟩ | ⟨-, metric_type', kind, hkind, hview⟩
  · rw [hview] at hsupports htype
    refine hapi htype.symm ?_
    cases hk : m.kind <;> rw [hk] at hresponse <;> simp [MetricType.response] at hresponse <;>
      subst hresponse <;> simpa [SourceKind.supports] using hsupports
  · rw [hview] at hsupports
    simp only [List.mem_cons, List.not_mem_nil, or_false] at hkind
    rcases hkind with rfl | rfl | rfl | rfl <;> simp [SourceKind.supports] at hsupports <;> omega

section Agree

variable {layout : Layout} {timing : List MetricMeta} {scalars : List ScalarMeta}
  {metric_type name : String} {family : Family}

/-- The captured views that show a type and a name in a family. -/
def shown_views (layout : Layout) (timing : List MetricMeta) (scalars : List ScalarMeta)
    (metric_type name : String) (family : Family) : List View :=
  ((family_groups (kept layout (captured timing scalars)) family).map Prod.fst).filter
    (fun view => view.output.metric_type = metric_type ∧ view.output.name = name)

theorem mem_shown_views (view : View) :
    view ∈ shown_views layout timing scalars metric_type name family
      ↔ (∃ s ∈ captured timing scalars, s.view = view) ∧ view.Shows metric_type name family := by
  rw [shown_views, List.mem_filter, mem_family_groups, decide_eq_true_eq, and_assoc]
  rfl

/-- Of the views that are shown, those of an entry are its own. -/
theorem length_entry_views {m : MetricMeta} (hm : m ∈ timing) (hnodup : m.views.Nodup) :
    ((shown_views layout timing scalars metric_type name family).filter (· ∈ m.views)).length
      = (m.views.filter (View.Shows metric_type name family)).length := by
  refine List.Perm.length_eq ((List.perm_ext_iff_of_nodup ?_ (hnodup.filter _)).mpr (fun view => ?_))
  · exact ((family_groups_nodup layout _ family).filter _).filter _
  · simp only [List.mem_filter, mem_shown_views, decide_eq_true_eq]
    constructor
    · exact fun h => ⟨h.2, h.1.2⟩
    · exact fun h => ⟨⟨exists_captured.mpr (.inl ⟨m, hm, h.1⟩), h.2⟩, h.1⟩

/-- What a reader emits for a type and a name in a family, before rounding: every slot counts once
for each of its views. -/
theorem sum_shown (h : Compared metric_type family)
    (htiming : (timing.map MetricMeta.item).Nodup) (hscalars : (scalars.map ScalarMeta.item).Nodup)
    (hplain : ∀ m ∈ timing, ∀ plan, m.profile = .Fanout plan →
      plan.outputs.Nodup ∧ plan.aggregate = none)
    (memory : Memory)
    (hfits : ∀ g ∈ family_groups (kept layout (captured timing scalars)) family,
      (g.2.map (fun item => (item.count memory family.counter).toNat)).sum ≤ U64_MAX) :
    (((family_groups (kept layout (captured timing scalars)) family).filter (fun g =>
        g.1.output.metric_type = metric_type ∧ g.1.output.name = name)).map (fun g =>
          (group_value memory family.counter g.2).toNat)).sum
      = (timing.map (fun m => (m.views.filter (View.Shows metric_type name family)).length
          * (family.counter.read memory m.item).toNat)).sum := by
  have hvalue : ∀ g ∈ family_groups (kept layout (captured timing scalars)) family,
      (group_value memory family.counter g.2).toNat
        -- a group that does not saturate is the exact total of its slots
        = exact_total memory family.counter (view_slots (captured timing scalars) g.1) := by
    intro g hg
    obtain ⟨hnodup, hslots⟩ := group_items layout _ family g hg
    rw [group_value_toNat, min_eq_right (hfits g hg), exact_total, ← hslots,
      List.sum_toFinset _ hnodup]
  -- the slots of such a view are timing slots only
  have htotal : ∀ view ∈ shown_views layout timing scalars metric_type name family,
      exact_total memory family.counter (view_slots (captured timing scalars) view)
        = ((timing.filter (fun m => view ∈ m.views)).map
            (fun m => (family.counter.read memory m.item).toNat)).sum := by
    intro view hview
    have hnone : scalars.filter (fun m => m.view = view) = [] :=
      List.filter_eq_nil_iff.mpr (fun m _ hm =>
        m.not_shows h (of_decide_eq_true hm ▸ ((mem_shown_views view).mp hview).2))
    rw [exact_total_captured htiming hscalars, hnone, List.map_nil, List.sum_nil, Nat.add_zero]
  calc (((family_groups (kept layout (captured timing scalars)) family).filter (fun g =>
        g.1.output.metric_type = metric_type ∧ g.1.output.name = name)).map (fun g =>
          (group_value memory family.counter g.2).toNat)).sum
      = ((shown_views layout timing scalars metric_type name family).map (fun view =>
          exact_total memory family.counter (view_slots (captured timing scalars) view))).sum := by
        rw [shown_views, List.filter_map, List.map_map]
        exact congrArg List.sum (List.map_congr_left (fun g hg => hvalue g (List.mem_filter.mp hg).1))
    _ = ((shown_views layout timing scalars metric_type name family).map (fun view =>
          ((timing.filter (fun m => view ∈ m.views)).map
            (fun m => (family.counter.read memory m.item).toNat)).sum)).sum :=
        congrArg List.sum (List.map_congr_left htotal)
    _ = (timing.map (fun m =>
          ((shown_views layout timing scalars metric_type name family).filter (· ∈ m.views)).length
            * (family.counter.read memory m.item).toNat)).sum :=
        sum_filter_swap _ timing (fun m view => view ∈ m.views) _
    _ = _ := by
        refine congrArg List.sum (List.map_congr_left (fun m hm => ?_))
        rw [length_entry_views hm (MetricMeta.views_nodup (hplain m hm))]

/-- What `visit` reports for a type and a name. -/
theorem sum_visited (h : Compared metric_type family)
    (hplain : ∀ m ∈ timing, ∀ plan, m.profile = .Fanout plan → plan.aggregate = none)
    (memory : Memory) :
    (((timing.flatMap (fun m => callbacks m (snapshot (fun _ => memory) m.item))).filter
        (fun c => c.1 = name ∧ c.2.1 = metric_type)).map
          (fun c => (c.2.2.of family.counter).toNat)).sum
      = (timing.map (fun m => (m.views.filter (View.Shows metric_type name family)).length
          * (family.counter.read memory m.item).toNat)).sum := by
  rw [List.filter_flatMap, List.map_flatMap, List.flatMap_def, List.sum_flatten, List.map_map]
  refine congrArg List.sum (List.map_congr_left (fun m hm => ?_))
  rw [Function.comp_apply, sum_callbacks h (hplain m hm), snapshot_of]

/-- A type and a name are visited exactly when they are shown. -/
theorem visited_iff_shown (h : Compared metric_type family)
    (hplain : ∀ m ∈ timing, ∀ plan, m.profile = .Fanout plan → plan.aggregate = none)
    (memory : Memory) :
    (∃ c ∈ timing.flatMap (fun m => callbacks m (snapshot (fun _ => memory) m.item)),
        c.1 = name ∧ c.2.1 = metric_type)
      ↔ ∃ g ∈ family_groups (kept layout (captured timing scalars)) family,
        g.1.output.metric_type = metric_type ∧ g.1.output.name = name := by
  have hcall : ∀ m ∈ timing,
      -- there is a callback for every view, and so for some callback a view
      (∃ c ∈ callbacks m (snapshot (fun _ => memory) m.item), c.1 = name ∧ c.2.1 = metric_type)
        ↔ ∃ view ∈ m.views, view.Shows metric_type name family := by
    intro m hm
    have hlength : _ = (m.views.filter (View.Shows metric_type name family)).length :=
      callbacks_eq_views h (hplain m hm) (snapshot (fun _ => memory) m.item)
    have hpos := (iff_of_eq (congrArg (0 < ·) hlength))
    simpa only [List.length_pos_iff_exists_mem, List.mem_filter, decide_eq_true_eq] using hpos
  have hshown : (∃ view, view ∈ shown_views layout timing scalars metric_type name family)
      ↔ ∃ g ∈ family_groups (kept layout (captured timing scalars)) family,
        g.1.output.metric_type = metric_type ∧ g.1.output.name = name := by
    simp only [shown_views, List.mem_filter, List.mem_map, decide_eq_true_eq]
    constructor
    · rintro ⟨view, ⟨g, hg, rfl⟩, hname⟩
      exact ⟨g, hg, hname⟩
    · rintro ⟨g, hg, hname⟩
      exact ⟨g.1, ⟨g, hg, rfl⟩, hname⟩
  rw [← hshown]
  simp only [List.mem_flatMap, mem_shown_views]
  constructor
  · rintro ⟨c, ⟨m, hm, hc⟩, hsame⟩
    obtain ⟨view, hview, hshows⟩ := (hcall m hm).mp ⟨c, hc, hsame⟩
    exact ⟨view, exists_captured.mpr (.inl ⟨m, hm, hview⟩), hshows⟩
  · rintro ⟨view, hcaptured, hshows⟩
    rcases exists_captured.mp hcaptured with ⟨m, hm, hview⟩ | ⟨m, -, rfl⟩
    · obtain ⟨c, hc, hsame⟩ := (hcall m hm).mpr ⟨view, hview, hshows⟩
      exact ⟨c, ⟨m, hm, hc⟩, hsame⟩
    · exact absurd hshows (m.not_shows h)

end Agree

/-- The two read paths agree. On a registry at rest, whose plans have distinct outputs and no
aggregate, and where no merged sum exceeds `u64::MAX`, what `visit` reports for a type and a name
adds up, component by component, to what a reader emits for them in the component's family before
it rounds; and a type and a name are visited exactly when the reader has series of theirs. -/
theorem History.visit_agrees (history : History) (n : ℕ) (layout : Layout) (order : IterOrder)
    (f64 : F64) (memory : Memory) {timing : List MetricMeta} {reader : PrometheusReader}
    (htiming : (history.registry n).for_each_meta = some timing)
    (hreader : PrometheusReader.from_registry layout order (history.registry n) = some reader)
    (hplain : ∀ m ∈ timing, ∀ plan, m.profile = .Fanout plan →
      plan.outputs.Nodup ∧ plan.aggregate = none)
    (hfits : ∀ (family : Family) view items, family.val < 6 →
      Line.group family view items ∈ reader.lines f64 →
      (items.map (fun item => (item.count memory family.counter).toNat)).sum ≤ U64_MAX) :
    ∃ visited, visit (fun _ _ => memory) (history.registry n) = some visited
      ∧ Streams f64 (fun _ => memory) 0 reader
          (((reader.lines f64).map (Line.entry memory)).map Entry.encode)
      ∧ ∀ metric_type name family, Compared metric_type family →
        ((visited.filter (fun c => c.1 = name ∧ c.2.1 = metric_type)).map
            (fun c => (c.2.2.of family.counter).toNat)).sum
          = ((((reader.lines f64).filterMap (Line.group_in family)).filter (fun g =>
              g.1.output.metric_type = metric_type ∧ g.1.output.name = name)).map (fun g =>
                (group_value memory family.counter g.2).toNat)).sum
        ∧ ((∃ c ∈ visited, c.1 = name ∧ c.2.1 = metric_type)
          ↔ ∃ view items, Line.group family view items ∈ reader.lines f64
            ∧ view.output.metric_type = metric_type ∧ view.output.name = name) := by
  obtain ⟨logs, scalars, store, hreached⟩ := history.reached n
  have hinv := hreached.represents.inv
  obtain rfl := Option.some.inj (hinv.for_each_meta.symm.trans htiming)
  obtain rfl := Option.some.inj
    ((PrometheusReader.from_registry_eq hinv layout order).symm.trans hreader)
  -- both read the entries that are registered, one directly and one by its captured sources
  have hlines := PrometheusReader.lines_start f64 (kept layout (captured (flat logs) (flat scalars)))
    ((history.registry n).state_snapshot order)
  have haggregate : ∀ m ∈ flat logs, ∀ plan, m.profile = .Fanout plan → plan.aggregate = none :=
    fun m hm plan hplan => (hplain m hm plan hplan).2
  refine ⟨_, visit_eq hinv.for_each_meta memory, ?_, fun metric_type name family hcompared => ⟨?_, ?_⟩⟩
  · rw [hlines, ← entries_const _ 0]
    exact streams_start layout _ _
  · rw [sum_visited hcompared haggregate, hlines, exposition_groups]
    refine (sum_shown hcompared hinv.items_nodup hinv.scalars.items_nodup hplain memory ?_).symm
    intro g hg
    refine hfits family g.1 g.2 hcompared.1 ?_
    rw [hlines]
    exact mem_exposition_group.mpr hg
  · rw [visited_iff_shown hcompared haggregate, hlines]
    constructor
    · rintro ⟨g, hg, hsame⟩
      exact ⟨g.1, g.2, mem_exposition_group.mpr hg, hsame⟩
    · rintro ⟨view, items, hline, hsame⟩
      exact ⟨(view, items), mem_exposition_group.mp hline, hsame⟩

/-- A process that counts requests of two kinds under one type and name. -/
def serving : History := History.sequential ⟨fun _ => 0⟩ ⟨fun _ => 0⟩ [.http "cache", .http_all "cache"]

/-- Three requests of the first kind. -/
def served : Memory := Function.update Memory.zero (.slot ⟨⟨0, SHARD_COUNT_pos⟩, 0, 0⟩ .count) 3

/-- Of all slots one has been counted. -/
theorem served_count (counter : Counter) (item : SourceItem)
    (h : item ≠ .Timing ⟨⟨0, SHARD_COUNT_pos⟩, 0, 0⟩) : item.count served counter = 0 := by
  cases item with
  | Timing item =>
    refine Function.update_of_ne (fun heq => h ?_) _ _
    rw [(Atomic.slot.inj heq).1]
  | Counter item => rfl
  | Gauge item => rfl

/-- Both kinds are visited, and the reader merges them. -/
theorem serving_agrees : ∃ visited reader,
    visit (fun _ _ => served) (serving.registry 2) = some visited
    ∧ PrometheusReader.from_registry .in_order .stored (serving.registry 2) = some reader
    ∧ ((visited.filter (fun c => c.1 = "cache" ∧ c.2.1 = "HTTP")).map
        (fun c => (c.2.2.of .Total).toNat)) = [3, 0]
    ∧ ((((reader.lines .unread).filterMap (Line.group_in ⟨0, by decide⟩)).filter (fun g =>
        g.1.output.metric_type = "HTTP" ∧ g.1.output.name = "cache")).map (fun g =>
          (group_value served .Total g.2).toNat)).sum = 3 := by
  obtain ⟨logs, scalars, store, hreached⟩ := serving.reached 2
  have hreader := PrometheusReader.from_registry_eq hreached.represents.inv .in_order .stored
  have htiming : (serving.registry 2).for_each_meta = some [
      ⟨⟨⟨0, SHARD_COUNT_pos⟩, 0, 0⟩, .Single "cache" (.Http .Req)⟩,
      ⟨⟨⟨0, SHARD_COUNT_pos⟩, 0, 1⟩, .Single "cache" .HttpAll⟩] := rfl
  obtain ⟨visited, hvisit, -, hagree⟩ := serving.visit_agrees 2 .in_order .stored .unread served
    htiming hreader (by simp) (by
      intro family view items _ hline
      rw [PrometheusReader.lines_start] at hline
      obtain ⟨hnodup, -⟩ := group_items _ _ family _ (mem_exposition_group.mp hline)
      rw [List.sum_map_eq_nsmul_single (.Timing ⟨⟨0, SHARD_COUNT_pos⟩, 0, 0⟩) _
        (fun item hitem _ => by rw [served_count _ item hitem]; rfl), smul_eq_mul]
      have hcount := List.nodup_iff_count_le_one.mp hnodup (.Timing ⟨⟨0, SHARD_COUNT_pos⟩, 0, 0⟩)
      have hword := (SourceItem.count served family.counter
        (.Timing ⟨⟨0, SHARD_COUNT_pos⟩, 0, 0⟩)).toNat_lt
      exact (Nat.mul_le_mul_right _ hcount).trans (by unfold U64_MAX; omega))
  refine ⟨visited, _, hvisit, hreader, ?_, ?_⟩
  · obtain rfl := Option.some.inj ((visit_eq htiming served).symm.trans hvisit)
    rfl
  · obtain rfl := Option.some.inj ((visit_eq htiming served).symm.trans hvisit)
    exact (hagree "HTTP" "cache" ⟨0, by decide⟩
      ⟨by decide, by decide, by decide, by decide⟩).1.symm

end BrzMetrics
