/-
No two samples of an output are the same series.

A series is a metric name with a set of rendered labels. Rendered labels give
back keys and values, because no key contains `=` and escaping is injective; the
labels of a view give back its output; and together with a family that the view
supports they give back its kind (`View.ext_labels`), provided the view is
consistent. So different groups of a family are different series, whatever the
strings are.
-/
import BrzMetrics.Views
import BrzMetrics.Snapshot

set_option autoImplicit false

namespace BrzMetrics

open SortBy TextFormat

namespace TextFormat

/-! ## Series -/

/-- The rendered labels of a sample, as a set. -/
def rendered (labels : List (String × String)) : Finset (List UInt8) :=
  (labels.map encode_label).toFinset

/-- The series a sample belongs to. -/
def Entry.series : Entry → Option (String × Finset (List UInt8))
  | .type _ _ => none
  | .sample name labels _ => some (name, rendered labels)

/-- A separator is found where it first occurs. -/
theorem append_separator_inj {α : Type} {s : α} {as as' bs bs' : List α} (has : s ∉ as)
    (has' : s ∉ as') (h : as ++ s :: bs = as' ++ s :: bs') : as = as' ∧ bs = bs' := by
  induction as generalizing as' with
  | nil =>
    cases as' with
    | nil => exact ⟨rfl, (List.cons.inj h).2⟩
    | cons c cs => exact absurd ((List.cons.inj h).1 ▸ List.mem_cons_self) has'
  | cons c cs ih =>
    cases as' with
    | nil => exact absurd ((List.cons.inj h).1 ▸ List.mem_cons_self) has
    | cons c' cs' =>
      obtain ⟨rfl, htail⟩ := List.cons.inj h
      obtain ⟨rfl, rfl⟩ := ih (fun hm => has (List.mem_cons_of_mem _ hm))
        (fun hm => has' (List.mem_cons_of_mem _ hm)) htail
      exact ⟨rfl, rfl⟩

/-- A key ends at the first `=`, and its value at the closing quote. -/
theorem encode_label_inj {a b : String × String} (ha : 61 ∉ bytes a.1) (hb : 61 ∉ bytes b.1)
    (h : encode_label a = encode_label b) : a = b := by
  simp only [encode_label, List.append_assoc, List.cons_append, List.nil_append] at h
  obtain ⟨hkey, hvalue⟩ := append_separator_inj ha hb h
  have hescape : escape (bytes a.2) = escape (bytes b.2) :=
    List.append_cancel_right (List.cons.inj hvalue).2
  exact Prod.ext (bytes_injective hkey) (bytes_injective (escape_injective hescape))

/-- Rendered labels give back the labels. -/
theorem mem_iff_of_rendered {as bs : List (String × String)} (ha : ∀ l ∈ as, 61 ∉ bytes l.1)
    (hb : ∀ l ∈ bs, 61 ∉ bytes l.1) (h : rendered as = rendered bs) (l : String × String) :
    l ∈ as ↔ l ∈ bs := by
  have hone : ∀ {as bs : List (String × String)}, (∀ l ∈ as, 61 ∉ bytes l.1) →
      (∀ l ∈ bs, 61 ∉ bytes l.1) → rendered as = rendered bs → l ∈ as → l ∈ bs := by
    intro as bs ha hb h hl
    have hmem : encode_label l ∈ rendered bs := by
      rw [← h, rendered, List.mem_toFinset]
      exact List.mem_map_of_mem hl
    rw [rendered, List.mem_toFinset] at hmem
    obtain ⟨l', hl', heq⟩ := List.mem_map.mp hmem
    rw [← encode_label_inj (hb l' hl') (ha l hl) heq]
    exact hl'
  exact ⟨hone ha hb h, hone hb ha h.symm⟩

end TextFormat

/-! ## The labels of a view -/

/-- The labels a view has besides its resource's and its kind's. -/
theorem View.mem_labels_iff (view : View) (key x : String) :
    (key, x) ∈ view.labels ↔ (key = "type" ∧ x = view.output.metric_type)
      ∨ (key = "name" ∧ x = view.output.name)
      ∨ (∃ resource, view.output.resource = some resource ∧ (key, x) ∈ resource.labels)
      ∨ (key, x) ∈ view.kind.labels := by
  obtain ⟨⟨metric_type, name, resource⟩, kind⟩ := view
  cases resource <;> simp [View.labels]

theorem ResourceLabels.mem_labels_iff (labels : ResourceLabels) (key x : String) :
    (key, x) ∈ labels.labels ↔ (key = "endpoint" ∧ x = labels.endpoint)
      ∨ (key = "access" ∧ labels.access.map MetricAccess.label = some x)
      ∨ (key = "role" ∧ labels.role.map ConnectionRole.label = some x) := by
  obtain ⟨name, endpoint, access, role⟩ := labels
  cases access <;> cases role <;> simp [ResourceLabels.labels, eq_comm]

/-- A resource has keys of its own. -/
theorem ResourceLabels.key_of_mem {labels : ResourceLabels} {key x : String}
    (h : (key, x) ∈ labels.labels) : key = "endpoint" ∨ key = "access" ∨ key = "role" := by
  rcases (labels.mem_labels_iff key x).mp h with ⟨h, -⟩ | ⟨h, -⟩ | ⟨h, -⟩
  · exact .inl h
  · exact .inr (.inl h)
  · exact .inr (.inr h)

/-- A kind has at most the status code. -/
theorem SourceKind.key_of_mem {kind : SourceKind} {key x : String} (h : (key, x) ∈ kind.labels) :
    key = "status_code" := by
  cases kind <;> simp [SourceKind.labels] at h <;> exact h.1

theorem View.mem_type (view : View) (x : String) :
    ("type", x) ∈ view.labels ↔ x = view.output.metric_type := by
  rw [view.mem_labels_iff]
  constructor
  · rintro (⟨-, h⟩ | ⟨h, -⟩ | ⟨resource, -, h⟩ | h)
    · exact h
    · exact absurd h (by decide)
    · exact absurd (ResourceLabels.key_of_mem h) (by decide)
    · exact absurd (SourceKind.key_of_mem h) (by decide)
  · exact fun h => .inl ⟨rfl, h⟩

theorem View.mem_name (view : View) (x : String) :
    ("name", x) ∈ view.labels ↔ x = view.output.name := by
  rw [view.mem_labels_iff]
  constructor
  · rintro (⟨h, -⟩ | ⟨-, h⟩ | ⟨resource, -, h⟩ | h)
    · exact absurd h (by decide)
    · exact h
    · exact absurd (ResourceLabels.key_of_mem h) (by decide)
    · exact absurd (SourceKind.key_of_mem h) (by decide)
  · exact fun h => .inr (.inl ⟨rfl, h⟩)

/-- Labels under a resource's keys come from the resource. -/
theorem View.mem_resource (view : View) {key : String} (x : String)
    (hkey : key = "endpoint" ∨ key = "access" ∨ key = "role") :
    (key, x) ∈ view.labels
      ↔ ∃ resource, view.output.resource = some resource ∧ (key, x) ∈ resource.labels := by
  have hother : key ≠ "type" ∧ key ≠ "name" ∧ key ≠ "status_code" := by
    rcases hkey with rfl | rfl | rfl <;> decide
  rw [view.mem_labels_iff]
  constructor
  · rintro (⟨h, -⟩ | ⟨h, -⟩ | h | h)
    · exact absurd h hother.1
    · exact absurd h hother.2.1
    · exact h
    · exact absurd (SourceKind.key_of_mem h) hother.2.2
  · exact fun h => .inr (.inr (.inl h))

/-- The status code comes from the kind. -/
theorem View.mem_status_code (view : View) (x : String) :
    ("status_code", x) ∈ view.labels ↔ ("status_code", x) ∈ view.kind.labels := by
  rw [view.mem_labels_iff]
  constructor
  · rintro (⟨h, -⟩ | ⟨h, -⟩ | ⟨resource, -, h⟩ | h)
    · exact absurd h (by decide)
    · exact absurd h (by decide)
    · exact absurd (ResourceLabels.key_of_mem h) (by decide)
    · exact h
  · exact fun h => .inr (.inr (.inr h))

/-! ## Labels give back the view -/

/-- Resources of one name with the same labels are the same. -/
theorem ResourceLabels.ext_labels {a b : ResourceLabels} (hname : a.name = b.name)
    (h : ∀ key x, key = "endpoint" ∨ key = "access" ∨ key = "role" →
      ((key, x) ∈ a.labels ↔ (key, x) ∈ b.labels)) : a = b := by
  have hendpoint := (h "endpoint" a.endpoint (.inl rfl)).mp
    ((a.mem_labels_iff _ _).mpr (.inl ⟨rfl, rfl⟩))
  have haccess : a.access.map MetricAccess.label = b.access.map MetricAccess.label := by
    refine Option.ext (fun x => ?_)
    have hx := h "access" x (.inr (.inl rfl))
    rw [a.mem_labels_iff, b.mem_labels_iff] at hx
    simpa using hx
  have hrole : a.role.map ConnectionRole.label = b.role.map ConnectionRole.label := by
    refine Option.ext (fun x => ?_)
    have hx := h "role" x (.inr (.inr rfl))
    rw [a.mem_labels_iff, b.mem_labels_iff] at hx
    simpa using hx
  rw [b.mem_labels_iff] at hendpoint
  refine ResourceLabels.ext hname (by simpa using hendpoint)
    (Option.map_injective MetricAccess.label_injective haccess)
    (Option.map_injective ConnectionRole.label_injective hrole)

/-- Kinds of one family with the same status code are the same, unless one is the full and the
other the summary of an `API`. -/
theorem SourceKind.ext_labels {a b : SourceKind} {family : ℕ} (ha : a.supports family = true)
    (hb : b.supports family = true)
    (h : ∀ x, ("status_code", x) ∈ a.labels ↔ ("status_code", x) ∈ b.labels)
    (hfull : ¬ (a = .Full ∧ b = .ApiSummary)) (hsummary : ¬ (a = .ApiSummary ∧ b = .Full)) :
    a = b := by
  have htimeout : ∀ c : UInt16, c.toNat.repr ≠ "timeout" := by
    intro c heq
    have hdigits : Nat.toDigits 10 c.toNat = "timeout".toList := by
      rw [← heq, Nat.repr, String.toList_ofList]
    have ht : 't' ∈ Nat.toDigits 10 c.toNat := by
      rw [hdigits]
      decide
    exact absurd (Decimal.isDigit_of_mem_toDigits ht) (by decide)
  -- most pairs support no family in common
  cases a <;> cases b <;>
    simp only [supports, decide_eq_true_eq, Bool.and_eq_true, beq_iff_eq] at ha hb <;>
    first | rfl | omega | exact absurd ⟨rfl, rfl⟩ hfull | exact absurd ⟨rfl, rfl⟩ hsummary | skip
  all_goals simp [labels] at h
  case Api.Api code code' => rw [UInt16.toNat_inj.mp h]
  case Api.Timeout code => exact absurd h (htimeout code)
  case Timeout.Api code => exact absurd h.symm (htimeout code)

/-- The labels other than the status code give back the output. -/
theorem View.output_of_labels {v w : View}
    (hv : ∀ labels ∈ v.output.resource, v.output.name = labels.name)
    (hw : ∀ labels ∈ w.output.resource, w.output.name = labels.name)
    (h : ∀ key x, key ≠ "status_code" → ((key, x) ∈ v.labels ↔ (key, x) ∈ w.labels)) :
    v.output = w.output := by
  have htype : v.output.metric_type = w.output.metric_type :=
    (w.mem_type _).mp ((h _ _ (by decide)).mp ((v.mem_type _).mpr rfl))
  have hname : v.output.name = w.output.name :=
    (w.mem_name _).mp ((h _ _ (by decide)).mp ((v.mem_name _).mpr rfl))
  have hlabels : ∀ {key : String} (x : String), key = "endpoint" ∨ key = "access" ∨ key = "role" →
      ((∃ resource, v.output.resource = some resource ∧ (key, x) ∈ resource.labels)
        ↔ ∃ resource, w.output.resource = some resource ∧ (key, x) ∈ resource.labels) := by
    intro key x hkey
    rw [← v.mem_resource x hkey, ← w.mem_resource x hkey]
    exact h _ _ (by rcases hkey with rfl | rfl | rfl <;> decide)
  have hresource : v.output.resource = w.output.resource := by
    cases hrv : v.output.resource with
    | none =>
      cases hrw : w.output.resource with
      | none => rfl
      | some b =>
        obtain ⟨a, ha, -⟩ := (hlabels b.endpoint (.inl rfl)).mpr
          ⟨b, hrw, (b.mem_labels_iff _ _).mpr (.inl ⟨rfl, rfl⟩)⟩
        rw [hrv] at ha
        exact absurd ha (by simp)
    | some a =>
      cases hrw : w.output.resource with
      | none =>
        obtain ⟨b, hb, -⟩ := (hlabels a.endpoint (.inl rfl)).mp
          ⟨a, hrv, (a.mem_labels_iff _ _).mpr (.inl ⟨rfl, rfl⟩)⟩
        rw [hrw] at hb
        exact absurd hb (by simp)
      | some b =>
        -- the name of a resource is not among its labels, but it is the output's
        have hsame : a.name = b.name := by
          rw [← hv a hrv, ← hw b hrw, hname]
        rw [ResourceLabels.ext_labels hsame (fun key x hkey => ?_)]
        have hx := hlabels x hkey
        rw [hrv, hrw] at hx
        simpa using hx
  exact ProfileOutput.ext htype hname hresource

/-- In a family, the labels of a consistent view give back the view. -/
theorem View.ext_labels {v w : View} {family : ℕ} (hv : v.Consistent) (hw : w.Consistent)
    (hvs : v.kind.supports family = true) (hws : w.kind.supports family = true)
    (h : ∀ l, l ∈ v.labels ↔ l ∈ w.labels) : v = w := by
  have houtput : v.output = w.output :=
    View.output_of_labels hv.named hw.named (fun key x _ => h (key, x))
  have htype := congrArg ProfileOutput.metric_type houtput
  have hkind : v.kind = w.kind := by
    refine SourceKind.ext_labels hvs hws (fun x => ?_) ?_ ?_
    · rw [← v.mem_status_code, ← w.mem_status_code]
      exact h _
    · rintro ⟨hfull, hsummary⟩
      exact hv.full hfull (htype.trans (hw.summary hsummary))
    · rintro ⟨hsummary, hfull⟩
      exact hw.full hfull (htype.symm.trans (hv.summary hsummary))
  obtain ⟨_, _⟩ := v
  obtain ⟨_, _⟩ := w
  simp only at houtput hkind
  rw [houtput, hkind]

/-- No key of a sample contains the byte that ends it. -/
theorem View.separator_notMem {view : View} : ∀ l ∈ view.labels, 61 ∉ bytes l.1 := by
  have hkeys : ∀ key ∈ ["type", "name", "endpoint", "access", "role", "status_code"],
      61 ∉ bytes key := by
    decide +kernel
  exact fun l hl => hkeys _ (View.mem_labels hl)

/-- In a family, consistent views render to different label sets. -/
theorem View.rendered_injective {v w : View} {family : ℕ} (hv : v.Consistent) (hw : w.Consistent)
    (hvs : v.kind.supports family = true) (hws : w.kind.supports family = true)
    (h : rendered v.labels = rendered w.labels) : v = w :=
  View.ext_labels hv hw hvs hws
    (mem_iff_of_rendered View.separator_notMem View.separator_notMem h)

/-! ## The series of an output -/

/-- The series of a line, which no memory is needed for. -/
def Line.series : Line → Option (String × Finset (List UInt8))
  | .type _ _ => none
  | .group family view _ => some (family.name, rendered view.labels)
  | .state snapshot field _ => some ("brz_rpc_state", rendered (snapshot.labels field))

theorem Line.entry_series (line : Line) (memory : Memory) :
    (line.entry memory).series = line.series := by
  cases line <;> rfl

theorem entries_series (env : ℕ → Memory) (t : ℕ) (lines : List Line) :
    (entries env t lines).filterMap Entry.series = lines.filterMap Line.series := by
  induction lines generalizing t with
  | nil => rfl
  | cons line lines ih =>
    rw [entries_cons, List.filterMap_cons, List.filterMap_cons, ih, line.entry_series]

/-- The series of a family: one for each of its groups. -/
def family_series (sources : List Source) (family : Family) :
    List (String × Finset (List UInt8)) :=
  ((family_groups sources family).map Prod.fst).map
    (fun view => (family.name, rendered view.labels))

theorem exposition_series (f64 : F64) (sources : List Source) (states : List StateSnapshot) :
    (exposition f64 sources states).filterMap Line.series
      = (List.finRange FAMILIES.length).flatMap (family_series sources)
        ++ (state_lines f64 states).filterMap Line.series := by
  have hfamily : ∀ family : Family,
      (Line.type family.name family.mode
        :: (family_groups sources family).map (fun g => Line.group family g.1 g.2)).filterMap
          Line.series = family_series sources family := by
    intro family
    rw [List.filterMap_cons_none rfl, List.filterMap_map, family_series, List.map_map,
      ← List.filterMap_eq_map]
    rfl
  rw [exposition, parts_from_zero, List.filterMap_append, List.filterMap_flatMap,
    List.filterMap_cons_none rfl]
  exact congrArg (· ++ _) (List.flatMap_congr (fun family _ => hfamily family))

/-- No two groups of a family are the same series. -/
theorem family_series_nodup (layout : Layout) (sources : List Source) (family : Family)
    (h : ∀ view, (∃ s ∈ sources, s.view = view) → view.Consistent) :
    (family_series (kept layout sources) family).Nodup := by
  refine (family_groups_nodup layout sources family).map_on ?_
  intro v hv w hw heq
  obtain ⟨hvc, hvs⟩ := (mem_family_groups layout sources family v).mp hv
  obtain ⟨hwc, hws⟩ := (mem_family_groups layout sources family w).mp hw
  exact View.rendered_injective (h v hvc) (h w hwc) hvs hws (Prod.mk.inj heq).2

/-- A state's labels give back its name and field. -/
theorem StateSnapshot.rendered_injective {s t : StateSnapshot} {field field' : String}
    (h : rendered (s.labels field) = rendered (t.labels field')) :
    s.name = t.name ∧ field = field' := by
  -- no key contains an equals sign, so a rendered label splits at its first one
  have hkeys : ∀ key ∈ ["type", "name", "field"], 61 ∉ bytes key := by decide +kernel
  have hknown : ∀ (s : StateSnapshot) (field : String), ∀ l ∈ s.labels field, 61 ∉ bytes l.1 := by
    intro s field l hl
    refine hkeys l.1 ?_
    simp only [labels, List.mem_cons, List.not_mem_nil, or_false] at hl
    rcases hl with rfl | rfl | rfl <;> simp
  have hmem := mem_iff_of_rendered (hknown s field) (hknown t field') h
  constructor
  · simpa [labels] using (hmem ("name", s.name)).mp (by simp [labels])
  · simpa [labels] using (hmem ("field", field)).mp (by simp [labels])

/-- The series of one state are among those of all its fields. -/
theorem field_series_sublist (f64 : F64) (s : StateSnapshot) (fields : List (String × String)) :
    ((field_lines f64 s fields).filterMap Line.series).Sublist
      (fields.map (fun f => ("brz_rpc_state", rendered (s.labels f.1)))) := by
  induction fields with
  | nil => exact List.Sublist.refl _
  | cons f fields ih =>
    obtain ⟨field, value⟩ := f
    rw [field_lines, List.filterMap_cons]
    cases hvalue : (f64.parse value).filter f64.is_finite with
    | none =>
      simp only [hvalue, Option.map_none]
      exact ih.cons _
    | some v =>
      simp only [hvalue, Option.map_some]
      exact ih.cons_cons _

/-- No two lines of the states are the same series. -/
theorem state_series_nodup (f64 : F64) (states : StateRegistry) (order : IterOrder) :
    ((state_lines f64 (states.snapshot order)).filterMap Line.series).Nodup := by
  rw [state_lines, List.filterMap_flatMap]
  refine List.nodup_flatMap.mpr ⟨fun s hs => ?_, ?_⟩
  · refine List.Nodup.sublist (field_series_sublist f64 s s.fields) ?_
    refine List.pairwise_map.mpr ((states.snapshot_fields order s hs).1.imp (fun {a b} hlt heq => ?_))
    rw [(StateSnapshot.rendered_injective (Prod.mk.inj heq).2).2] at hlt
    exact lt_irrefl _ hlt
  · refine (states.snapshot_pairwise order).imp (fun {a b} hlt => ?_)
    intro series ha hb
    obtain ⟨f, -, rfl⟩ := List.mem_map.mp ((field_series_sublist f64 a _).mem ha)
    obtain ⟨f', -, heq⟩ := List.mem_map.mp ((field_series_sublist f64 b _).mem hb)
    have hname := (StateSnapshot.rendered_injective (Prod.mk.inj heq).2).1
    have htype : a.state_type = b.state_type := by
      cases a.state_type
      cases b.state_type
      rfl
    rw [hname, htype] at hlt
    exact lt_irrefl _ hlt

/-- Whatever has been registered and recorded through the public functions, and whatever the
counters are while the output is read, no two samples of it have the same name and the same set of
rendered labels, and views that support the same family have different labels. -/
theorem History.series_unique (history : History) (n : ℕ) (layout : Layout) (order : IterOrder)
    (f64 : F64) (env : ℕ → Memory) :
    ∃ timing scalars reader, ∃ es : List Entry,
      (history.registry n).for_each_meta = some timing
      ∧ (history.registry n).scalars.for_each = some scalars
      ∧ PrometheusReader.from_registry layout order (history.registry n) = some reader
      ∧ Streams f64 env 0 reader (es.map Entry.encode)
      ∧ (es.filterMap Entry.series).Nodup
      ∧ ∀ s ∈ captured timing scalars, ∀ s' ∈ captured timing scalars, ∀ family : Family,
        s.kind.supports family.val = true → s'.kind.supports family.val = true →
        s.view ≠ s'.view → rendered s.view.labels ≠ rendered s'.view.labels := by
  obtain ⟨logs, scalars, store, hreached⟩ := history.reached n
  have hconsistent : ∀ view : View, (∃ s ∈ captured (flat logs) (flat scalars), s.view = view) →
      view.Consistent := fun _ => hreached.consistent
  have hstates : ∀ family : Family, family.name ≠ "brz_rpc_state" := by decide
  refine ⟨flat logs, flat scalars, _, _, hreached.represents.inv.for_each_meta,
    hreached.represents.inv.scalars.for_each,
    PrometheusReader.from_registry_eq hreached.represents.inv layout order,
    streams_start layout _ _, ?_, ?_⟩
  · rw [entries_series, exposition_series]
    refine List.Nodup.append ?_ (state_series_nodup f64 _ order) ?_
    · -- two families have different names, and within a family the labels differ
      refine List.nodup_flatMap.mpr
        ⟨fun family _ => family_series_nodup layout _ family hconsistent, ?_⟩
      refine (List.nodup_finRange _).imp (fun {a b} hab => ?_)
      intro series ha hb
      obtain ⟨v, -, rfl⟩ := List.mem_map.mp ha
      obtain ⟨w, -, heq⟩ := List.mem_map.mp hb
      exact hab (Family.name_injective (Prod.mk.inj heq).1.symm)
    · intro series ha hb
      -- the states have a name of their own
      obtain ⟨family, -, ha⟩ := List.mem_flatMap.mp ha
      obtain ⟨view, -, rfl⟩ := List.mem_map.mp ha
      rw [state_lines, List.filterMap_flatMap] at hb
      obtain ⟨s, -, hb⟩ := List.mem_flatMap.mp hb
      obtain ⟨f, -, heq⟩ := List.mem_map.mp ((field_series_sublist f64 s _).mem hb)
      exact hstates family (Prod.mk.inj heq).1.symm
  · intro s hs s' hs' family hsupports hsupports' hne heq
    exact hne (View.rendered_injective (hconsistent _ ⟨s, hs, rfl⟩) (hconsistent _ ⟨s', hs', rfl⟩)
      hsupports hsupports' heq)

end BrzMetrics
