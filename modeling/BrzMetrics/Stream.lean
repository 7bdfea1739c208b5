/-
The complete output of a reader.

`Streams` says which buffers repeated calls of `next_sample` fill before the
first call that finds nothing more. The counters may change while the stream is
encoded: call number `t` runs in the memory `env t`. Every reader has exactly one
stream (`streams_lines`, `Streams.unique`), the encoding of its lines.

What the lines of a reader on a registry are is settled by the sort: sources
ascend by view and by slot, without repeats, so the groups of a family are
exactly the captured views of its kinds, and a group's slots are the set of
slots captured under its view (`mem_family_groups`, `group_items`).
-/
import BrzMetrics.Cursor
import BrzMetrics.RegistryStore

set_option autoImplicit false

namespace BrzMetrics

open SortBy TextFormat KeyedStore

/-! ## Streams -/

/-- Calling `next_sample` again and again, first in the memory `env t`, then `env (t + 1)` and so
on, fills the buffer with `bs` one after the other, and then finds nothing more. -/
inductive Streams (f64 : F64) (env : ℕ → Memory) :
    ℕ → PrometheusReader → List (List UInt8) → Prop where
  | done {t : ℕ} {r r' : PrometheusReader}
      (hnext : PrometheusReader.next_sample f64 (env t) r = some (false, r')) :
      Streams f64 env t r []
  | more {t : ℕ} {r r' : PrometheusReader} {bs : List (List UInt8)}
      (hnext : PrometheusReader.next_sample f64 (env t) r = some (true, r'))
      (hrest : Streams f64 env (t + 1) r' bs) : Streams f64 env t r (r'.buffer :: bs)

/-- The entries of lines that are read one after the other, from time `t` on. -/
def entries (env : ℕ → Memory) (t : ℕ) (lines : List Line) : List Entry :=
  lines.mapIdx (fun i line => line.entry (env (t + i)))

@[simp] theorem entries_nil (env : ℕ → Memory) (t : ℕ) : entries env t [] = [] := rfl

@[simp] theorem entries_cons (env : ℕ → Memory) (t : ℕ) (line : Line) (lines : List Line) :
    entries env t (line :: lines) = line.entry (env t) :: entries env (t + 1) lines := by
  rw [entries, List.mapIdx_cons, Nat.add_zero, entries]
  congr 2
  funext i line
  rw [Nat.add_assoc, Nat.add_comm 1 i]

@[simp] theorem length_entries (env : ℕ → Memory) (t : ℕ) (lines : List Line) :
    (entries env t lines).length = lines.length := List.length_mapIdx

/-- With the counters at rest an entry does not depend on when it is read. -/
theorem entries_const (memory : Memory) (t : ℕ) (lines : List Line) :
    entries (fun _ => memory) t lines = lines.map (Line.entry memory) := by
  induction lines generalizing t with
  | nil => rfl
  | cons line lines ih => rw [entries_cons, ih, List.map_cons]

variable {f64 : F64} {env : ℕ → Memory}

/-- The stream of a reader is the encoding of its lines. -/
theorem streams_lines (t : ℕ) {r : PrometheusReader} (h : r.Valid) :
    Streams f64 env t r ((entries env t (r.lines f64)).map Entry.encode) := by
  generalize hlines : r.lines f64 = lines
  induction lines generalizing t r with
  | nil =>
    obtain ⟨more, after, hnext, -, -, hend⟩ := PrometheusReader.next_sample_spec f64 (env t) r h
    rw [hlines] at hend
    obtain ⟨rfl, -⟩ := hend
    exact .done hnext
  | cons line lines ih =>
    obtain ⟨more, after, hnext, hvalid, -, htakes⟩ :=
      PrometheusReader.next_sample_spec f64 (env t) r h
    rw [hlines] at htakes
    obtain ⟨rfl, hbuffer, hrest⟩ := htakes
    rw [entries_cons, List.map_cons, ← hbuffer]
    exact .more hnext (ih (t + 1) hvalid hrest)

/-- A reader has one stream. -/
theorem Streams.unique {t : ℕ} {r : PrometheusReader} {bs bs' : List (List UInt8)}
    (h : Streams f64 env t r bs) (h' : Streams f64 env t r bs') : bs = bs' := by
  induction h generalizing bs' with
  | done hnext =>
    cases h' with
    | done _ => rfl
    | more hnext' _ =>
      rw [hnext] at hnext'
      simp at hnext'
  | more hnext _ ih =>
    cases h' with
    | done hnext' =>
      rw [hnext] at hnext'
      simp at hnext'
    | more hnext' hrest' =>
      rw [hnext] at hnext'
      simp only [Option.some.injEq, Prod.mk.injEq, true_and] at hnext'
      subst hnext'
      rw [ih hrest']

/-! ## Sorted sources -/

/-- The sources a reader keeps of what it captured. -/
def kept (layout : Layout) (sources : List Source) : List Source :=
  dedup (sort_by (Source.rank layout) sources)

section Kept

variable (layout : Layout) (sources : List Source)

@[simp] theorem mem_kept {s : Source} : s ∈ kept layout sources ↔ s ∈ sources := by
  rw [kept, mem_dedup, mem_sort_by]

/-- Kept sources ascend strictly. -/
theorem kept_pairwise :
    (kept layout sources).Pairwise (fun a b => a.rank layout < b.rank layout) :=
  dedup_pairwise (Source.rank_injective layout) (sort_by_pairwise _ _)

theorem kept_nodup : (kept layout sources).Nodup :=
  (kept_pairwise layout sources).imp (fun {a b} hlt heq => absurd hlt (by rw [heq]; exact lt_irrefl _))

/-- Kept sources ascend by view. -/
theorem kept_views :
    (kept layout sources).Pairwise (fun a b => a.view ≤ b.view) := by
  refine (kept_pairwise layout sources).imp (fun {a b} hlt => ?_)
  rcases (Prod.Lex.lt_iff.mp hlt) with hlt | ⟨heq, -⟩
  · exact le_of_lt hlt
  · exact le_of_eq heq

/-- The slots captured under a view. -/
def view_slots (sources : List Source) (view : View) : Finset SourceItem :=
  ((sources.filter (fun s => s.view = view)).map Source.item).toFinset

theorem mem_view_slots {view : View} {item : SourceItem} :
    item ∈ view_slots sources view ↔ ∃ s ∈ sources, s.view = view ∧ s.item = item := by
  simp only [view_slots, List.mem_toFinset, List.mem_map, List.mem_filter, decide_eq_true_eq,
    and_assoc]

/-- The groups of a family, each a view and its slots in order. -/
def family_groups (sources : List Source) (family : Family) : List (View × List SourceItem) :=
  ((groups Source.view sources).filter (fun g => g.1.kind.supports family.val)).map
    (fun g => (g.1, g.2.map Source.item))

theorem family_lines_eq (family : Family) :
    family_lines sources family
      = (family_groups sources family).map (fun g => .group family g.1 g.2) := by
  rw [family_lines, family_groups, List.map_map]
  rfl

/-- A family has a group for exactly the captured views it supports. -/
theorem mem_family_groups (family : Family) (view : View) :
    view ∈ (family_groups (kept layout sources) family).map Prod.fst
      ↔ (∃ s ∈ sources, s.view = view) ∧ view.kind.supports family.val = true := by
  have hgroup := mem_map_groups Source.view (kept layout sources) view
  simp only [mem_kept] at hgroup
  rw [← hgroup, family_groups, List.map_map, List.mem_map, List.mem_map]
  constructor
  · rintro ⟨g, hg, rfl⟩
    obtain ⟨hg, hkind⟩ := List.mem_filter.mp hg
    exact ⟨⟨g, hg, rfl⟩, hkind⟩
  · rintro ⟨⟨g, hg, rfl⟩, hkind⟩
    exact ⟨g, List.mem_filter.mpr ⟨hg, hkind⟩, rfl⟩

/-- No view has two groups in a family. -/
theorem family_groups_nodup (family : Family) :
    ((family_groups (kept layout sources) family).map Prod.fst).Nodup := by
  have hstrict := groups_pairwise Source.view (kept layout sources) (kept_views layout sources)
  have hnodup : ((groups Source.view (kept layout sources)).map Prod.fst).Nodup :=
    hstrict.imp (fun {a b} hlt => ne_of_lt hlt)
  rw [family_groups, List.map_map]
  exact hnodup.sublist ((List.filter_sublist).map _)

/-- A group lists the slots captured under its view, each once. -/
theorem group_items (family : Family) :
    ∀ g ∈ family_groups (kept layout sources) family,
      g.2.Nodup ∧ g.2.toFinset = view_slots sources g.1 := by
  intro g hg
  obtain ⟨g, hmem, rfl⟩ := List.mem_map.mp hg
  have hfilter := groups_eq_filter Source.view (kept layout sources) (kept_views layout sources) g
    (List.mem_filter.mp hmem).1
  have hview : ∀ s ∈ g.2, s ∈ sources ∧ s.view = g.1 := by
    intro s hs
    rw [hfilter] at hs
    obtain ⟨hs, hv⟩ := List.mem_filter.mp hs
    exact ⟨(mem_kept layout sources).mp hs, by simpa using hv⟩
  constructor
  · -- sources of one view differ in their slots, for the same source is kept once
    refine List.Nodup.map_on ?_ (by rw [hfilter]; exact (kept_nodup layout sources).filter _)
    intro a ha b hb hitem
    obtain ⟨ao, ak, ai⟩ := a
    obtain ⟨bo, bk, bi⟩ := b
    have hsame := (hview _ ha).2.trans (hview _ hb).2.symm
    simp only [Source.view, View.mk.injEq] at hsame
    simp only at hitem
    rw [hsame.1, hsame.2, hitem]
  · ext item
    rw [List.mem_toFinset, mem_view_slots, List.mem_map]
    constructor
    · rintro ⟨s, hs, rfl⟩
      exact ⟨s, (hview s hs).1, (hview s hs).2, rfl⟩
    · rintro ⟨s, hs, hv, rfl⟩
      refine ⟨s, ?_, rfl⟩
      rw [hfilter]
      exact List.mem_filter.mpr ⟨(mem_kept layout sources).mpr hs, by simpa using hv⟩

/-- The exact total of a counter over a set of slots. -/
def exact_total (memory : Memory) (counter : Counter) (slots : Finset SourceItem) : ℕ :=
  ∑ item ∈ slots, (SourceItem.count memory counter item).toNat

/-- The counter value of a group is the exact total over its set of slots, cut off once. -/
theorem group_value_kept (memory : Memory) (counter : Counter) (family : Family) :
    ∀ g ∈ family_groups (kept layout sources) family,
      (group_value memory counter g.2).toNat
        = min U64_MAX (exact_total memory counter (view_slots sources g.1)) := by
  intro g hg
  obtain ⟨hnodup, hslots⟩ := group_items layout sources family g hg
  rw [group_value_toNat, exact_total, ← hslots, List.sum_toFinset _ hnodup]

end Kept

/-! ## The reader of a registry -/

/-- A reader captures the views of all registered slots. -/
theorem PrometheusReader.from_registry_eq {r : Registry} {logs : Fin SHARD_COUNT → List MetricMeta}
    {scalars : Fin SHARD_COUNT → List ScalarMeta} (h : r.Inv logs scalars) (layout : Layout)
    (order : IterOrder) :
    PrometheusReader.from_registry layout order r
      = some (start (kept layout (captured (flat logs) (flat scalars)))
          (r.state_snapshot order)) := by
  rw [from_registry, h.for_each_meta, h.scalars.for_each]
  rfl

/-- The stream of a reader on a registry, from its first call on. -/
theorem streams_start (layout : Layout) (sources : List Source) (states : List StateSnapshot) :
    Streams f64 env 0 (PrometheusReader.start (kept layout sources) states)
      ((entries env 0 (exposition f64 (kept layout sources) states)).map Entry.encode) := by
  rw [← PrometheusReader.lines_start]
  exact streams_lines 0 (PrometheusReader.valid_start (kept layout sources) states)

/-- The families' part of an exposition, as groups under `TYPE` lines. -/
theorem parts_from_zero (sources : List Source) :
    parts_from sources 0 = (List.finRange FAMILIES.length).flatMap (fun family =>
      .type family.name family.mode
        :: (family_groups sources family).map (fun g => .group family g.1 g.2)) := by
  rw [parts_from, List.drop_zero]
  exact List.flatMap_congr (fun family _ => by rw [family_part, family_lines_eq])

/-- A line of an exposition is a family's `TYPE` line, one of its groups, or about the states. -/
theorem exposition_cases {f64 : F64} {sources : List Source} {states : List StateSnapshot}
    {line : Line} (h : line ∈ exposition f64 sources states) :
    (∃ family : Family, line = .type family.name family.mode)
      ∨ (∃ family : Family, ∃ g ∈ family_groups sources family, line = .group family g.1 g.2)
      ∨ line = state_type ∨ ∃ snapshot field value, line = .state snapshot field value := by
  rw [exposition, parts_from_zero] at h
  rcases List.mem_append.mp h with hline | hline
  · obtain ⟨family, -, hline⟩ := List.mem_flatMap.mp hline
    rcases List.mem_cons.mp hline with rfl | hline
    · exact .inl ⟨family, rfl⟩
    · obtain ⟨g, hg, rfl⟩ := List.mem_map.mp hline
      exact .inr (.inl ⟨family, g, hg, rfl⟩)
  · rcases List.mem_cons.mp hline with hline | hline
    · exact .inr (.inr (.inl hline))
    · exact .inr (.inr (.inr (mem_state_lines hline)))

/-- The lines of an exposition under a family's name are its groups. -/
theorem mem_exposition_group {f64 : F64} {sources : List Source} {states : List StateSnapshot}
    {family : Family} {view : View} {items : List SourceItem} :
    Line.group family view items ∈ exposition f64 sources states
      ↔ (view, items) ∈ family_groups sources family := by
  constructor
  · intro hline
    rcases exposition_cases hline with ⟨_, heq⟩ | ⟨family', g, hg, heq⟩ | heq | ⟨_, _, _, heq⟩
    · exact Line.noConfusion heq
    · obtain ⟨rfl, rfl, rfl⟩ := Line.group.inj heq
      exact hg
    · exact Line.noConfusion heq
    · exact Line.noConfusion heq
  · intro hg
    rw [exposition, parts_from_zero, List.mem_append, List.mem_flatMap]
    exact .inl ⟨family, List.mem_finRange family,
      List.mem_cons_of_mem _ (List.mem_map.mpr ⟨(view, items), hg, rfl⟩)⟩

/-- What a reader emits, for any registrations in any order, any hash functions, slot addresses
and hash map orders, and any counter values: the ten families in order, each its `TYPE` line and
then one sample for each captured view of a supported kind, and then the states, which no
registration touches. A sample's value is computed from the slots that have the view, each taken
once, and a counter's is their exact total cut off at `u64::MAX`. -/
theorem Registry.exposition_complete (shard_hasher : RandomState TimingKey)
    (scalar_hasher : RandomState ScalarKey) (ops : List Registration) (states : StateRegistry)
    (layout : Layout) (order : IterOrder) (f64 : F64) (memory : Memory) :
    ∃ outcomes r timing scalars reader bs,
    ∃ samples : Family → List (View × List SourceItem),
      (Registry.new shard_hasher scalar_hasher).calls ops = (outcomes, r)
      ∧ r.for_each_meta = some timing ∧ r.scalars.for_each = some scalars
      ∧ (timing.map MetricMeta.registered ++ scalars.map ScalarMeta.registered).Perm
          (firsts Entry.key (accepted outcomes))
      ∧ PrometheusReader.from_registry layout order { r with states := states } = some reader
      ∧ Streams f64 (fun _ => memory) 0 reader bs
      ∧ bs = (((List.finRange FAMILIES.length).flatMap (fun family =>
            Line.type family.name family.mode
              :: (samples family).map (fun g => Line.group family g.1 g.2))
          ++ state_type :: state_lines f64 (states.snapshot order)).map
            (Line.entry memory)).map Entry.encode
      ∧ ∀ family,
        ((samples family).map Prod.fst).Nodup
        ∧ (∀ view, view ∈ (samples family).map Prod.fst ↔
            (∃ s ∈ captured timing scalars, s.view = view)
              ∧ view.kind.supports family.val = true)
        ∧ ∀ g ∈ samples family,
          g.2.Nodup ∧ g.2.toFinset = view_slots (captured timing scalars) g.1
          ∧ (group_value memory family.counter g.2).toNat
              = min U64_MAX (exact_total memory family.counter
                  (view_slots (captured timing scalars) g.1)) := by
  obtain ⟨logs, scalars, store, hrep, hruns, -, -, -⟩ :=
    (represents_new shard_hasher scalar_hasher).calls ops
  generalize (Registry.new shard_hasher scalar_hasher).calls ops = result at *
  obtain ⟨outcomes, r⟩ := result
  -- the states are arbitrary: registrations do not touch them
  have hinv := hrep.inv.with_states states
  refine ⟨outcomes, r, flat logs, flat scalars, _, _,
    family_groups (kept layout (captured (flat logs) (flat scalars))), rfl,
    hrep.inv.for_each_meta, hrep.inv.scalars.for_each, ?_,
    PrometheusReader.from_registry_eq hinv layout order, streams_start layout _ _, ?_, ?_⟩
  · rw [← hruns.entries]
    exact hrep.listed
  · rw [entries_const, exposition, parts_from_zero]
    rfl
  · intro family
    refine ⟨family_groups_nodup layout _ family, mem_family_groups layout _ family, ?_⟩
    intro g hg
    obtain ⟨hnodup, hslots⟩ := group_items layout _ family g hg
    exact ⟨hnodup, hslots, group_value_kept layout _ memory family.counter family g hg⟩

/-! ## Reading the output back -/

/-- The code writes `TYPE` lines for its own families only. -/
theorem exposition_known (f64 : F64) (sources : List Source) (states : List StateSnapshot) :
    ∀ line ∈ exposition f64 sources states, line.Known := by
  have hfamily : ∀ family : Family, (Entry.type family.name family.mode).WellFormed := by
    decide +kernel
  intro line hline
  rcases exposition_cases hline with ⟨family, rfl⟩ | ⟨family, g, -, rfl⟩ | rfl | ⟨_, _, _, rfl⟩
  · exact hfamily family
  · trivial
  · rw [state_type, Line.Known]
    decide +kernel
  · trivial

/-- Every entry of a stream parses, whatever memory it was read from. -/
theorem entries_wellFormed (env : ℕ → Memory) (t : ℕ) {lines : List Line}
    (h : ∀ line ∈ lines, line.Known) :
    ∀ entry ∈ entries env t lines, entry.WellFormed := by
  intro entry hentry
  obtain ⟨i, hi, rfl⟩ := List.mem_mapIdx.mp hentry
  exact Line.entry_wellFormed (h _ (List.getElem_mem hi)) _

/-- Parsing a reader's complete output gives back the entries that were produced, for any captured
sources and states and any counter updates meanwhile: no string used as a type, name, endpoint,
state name or field gets out of its label. There is one line for each entry, and the bytes are
valid UTF-8. -/
theorem PrometheusReader.output_parses (f64 : F64) (env : ℕ → Memory) (sources : List Source)
    (states : List StateSnapshot) :
    ∃ bs, Streams f64 env 0 (start sources states) bs
      ∧ bs = (entries env 0 (exposition f64 sources states)).map Entry.encode
      ∧ parse bs.flatten = some (entries env 0 (exposition f64 sources states))
      ∧ (split_lines bs.flatten).1.length = bs.length ∧ (split_lines bs.flatten).2 = []
      ∧ IsText bs.flatten := by
  have hwell := entries_wellFormed env 0 (exposition_known f64 sources states)
  have hstream : Streams f64 env 0 (start sources states) _ :=
    streams_lines 0 (valid_start sources states)
  rw [lines_start] at hstream
  refine ⟨_, hstream, rfl, ?_, ?_, ?_, ?_⟩
  · rw [← List.flatMap_def]
    exact parse_encode hwell
  · rw [← List.flatMap_def, split_lines_encode hwell, List.length_map, List.length_map]
  · rw [← List.flatMap_def, split_lines_encode hwell]
  · refine IsText.flatten (fun line hline => ?_)
    obtain ⟨entry, -, rfl⟩ := List.mem_map.mp hline
    exact isText_encode entry

end BrzMetrics
