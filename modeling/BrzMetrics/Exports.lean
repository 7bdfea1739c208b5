/-
What a scrape of a running process shows.

A reader is built while threads register, and read while they update, one load at a
time. A `Scrape` says at which moments of a run that happens. A counter of a slot is
at every moment between what the returned calls on it add and what the begun ones add
(`Records.between`), and a line shows of each of its slots the value of one load
(`Loads`); so every exported sum is between the calls that had returned when the
reader was built and those that had begun when it was read (`Process.exports_between`),
and from one scrape to the next no exported counter falls or vanishes
(`Process.exports_monotone`).
-/
import BrzMetrics.Loads
import BrzMetrics.Moments

set_option autoImplicit false

namespace BrzMetrics

open SortBy KeyedStore Linearize TextFormat

/-! ## The slots behind a counter -/

/-- A counter's value as its sample shows it. -/
def Family.shown (self : Family) (total : UInt64) : Decimal :=
  if self.seconds then Decimal.ofHundredths (PrometheusReader.hundredths total).toNat
  else Decimal.ofNat total.toNat

theorem sample_value_counter {family : Family} (hcounter : family.is_gauge = false)
    (memory : Memory) (items : List SourceItem) :
    sample_value memory family items = family.shown (group_value memory family.counter items) := by
  rw [sample_value, if_neg (by rw [hcounter]; simp)]
  rfl

/-- What is captured in a counter family are timing slots and counters. -/
theorem counter_items {timing : List MetricMeta} {scalars : List ScalarMeta} {family : Family}
    (hcounter : family.is_gauge = false) {view : View}
    (hsupports : view.kind.supports family.val = true) {item : SourceItem}
    (hitem : item ∈ view_slots (captured timing scalars) view) :
    (∃ m ∈ timing, item = .Timing m.item)
      ∨ ∃ m ∈ scalars, m.mode = .Counter ∧ item = .Counter m.item := by
  rcases mem_view_slots_captured.mp hitem with ⟨m, hm, -, rfl⟩ | ⟨m, hm, hview, rfl⟩
  · exact .inl ⟨m, hm, rfl⟩
  · cases hmode : m.mode with
    | Counter => exact .inr ⟨m, hm, hmode, by rw [source_item_eq, hmode]⟩
    | Gauge =>
      -- gauges are in the gauge families
      exfalso
      rw [← hview, m.view_of_gauge hmode] at hsupports
      have hlow : family.val < 8 := not_le.mp (of_decide_eq_false hcounter)
      split_ifs at hsupports
      all_goals
        have := of_decide_eq_true hsupports
        omega

/-- Such a slot counts what its atomic holds. -/
theorem count_eq_atomic {timing : List MetricMeta} {scalars : List ScalarMeta} {family : Family}
    (hcounter : family.is_gauge = false) {view : View}
    (hsupports : view.kind.supports family.val = true) {item : SourceItem}
    (hitem : item ∈ view_slots (captured timing scalars) view) (memory : Memory) :
    item.count memory family.counter = memory (item.atomic family.counter) := by
  rcases counter_items hcounter hsupports hitem with ⟨m, -, rfl⟩ | ⟨m, -, -, rfl⟩ <;> rfl

namespace Process

section Slots

variable {host : Host} {schedule : List Move} {p : Process}

/-- The slot of a counter is that of no gauge, whenever either was registered. -/
theorem counter_slot_ne (hrun : new.run host schedule = some p) {k : ℕ} {m : ScalarMeta}
    (hm : m ∈ flat (moment host schedule k).scalars.orders) (hmode : m.mode = .Counter)
    {gauge : GaugeMetric} (hgauge : .gauge gauge ∈ p.returned) : m.item ≠ gauge.item := by
  intro heq
  obtain ⟨history, store, hrep, hreached⟩ := exists_store (run_take hrun k)
  obtain ⟨op, handle, hissued, -, hentry⟩ := hreached.origin m.registered
    (List.mem_append_right _ (List.mem_map_of_mem hm))
  rw [hrep.issued] at hissued
  -- the registrations of that moment are among those of the whole run
  obtain ⟨last, hlast⟩ := exists_history hrun
  have hreturned : last.Returned op handle := by
    refine ⟨p.order.length, ?_⟩
    rw [hlast.issued]
    exact ((moment_grows hrun k).2.filterMap issued_by).subset hissued
  obtain ⟨op', hreturned'⟩ := hlast.returned hrun hgauge
  have hkey : op.key = .scalar m.key := (congrArg Entry.key hentry).symm
  have hslot : handle.slot = .scalar m.item := (congrArg Entry.slot hentry).symm
  have hkeymode : m.key.mode = m.mode := by
    rw [ScalarMeta.key]
    cases m.resource <;> rfl
  have hof := hreturned.of_key
  rw [hkey] at hof
  cases hof with
  | counter key item _ =>
    refine History.counter_ne_gauge hreturned hreturned' ?_
    exact (SlotPtr.scalar.inj hslot).trans heq
  | gauge key item hgaugemode =>
    rw [hkeymode, hmode] at hgaugemode
    exact ScalarKind.noConfusion hgaugemode

/-- What a traversal has passed are entries of the registry. -/
theorem traversed_entries (hrun : new.run host schedule = some p) (k v : ℕ) :
    traversed ((moment host schedule k).timing.visitors v)
        ⊆ flat (moment host schedule k).timing.orders
      ∧ traversed ((moment host schedule k).scalars.visitors v)
        ⊆ flat (moment host schedule k).scalars.orders := by
  obtain ⟨turns, hturns⟩ := (run_steps (run_take hrun k)).1.timing
  obtain ⟨turns', hturns'⟩ := (run_steps (run_take hrun k)).1.scalars
  exact ⟨(traversed_sublist hturns v).subset, (traversed_sublist hturns' v).subset⟩

/-- The atomics that a captured counter is loaded from are those of no gauge. -/
theorem counter_atomic (hrun : new.run host schedule = some p) (k v : ℕ) {family : Family}
    (hcounter : family.is_gauge = false) {view : View}
    (hsupports : view.kind.supports family.val = true) {item : SourceItem}
    (hitem : item ∈ view_slots (captured (traversed ((moment host schedule k).timing.visitors v))
      (traversed ((moment host schedule k).scalars.visitors v))) view) :
    ∀ gauge, .gauge gauge ∈ p.returned → item.atomic family.counter ≠ .scalar gauge.item := by
  intro gauge hgauge
  rcases counter_items hcounter hsupports hitem with ⟨m, -, rfl⟩ | ⟨m, hm, hmode, rfl⟩
  · exact Atomic.noConfusion
  · intro heq
    exact counter_slot_ne hrun ((traversed_entries hrun k v).2 hm) hmode hgauge
      (Atomic.scalar.inj heq)

/-- A reader that has been built is that of its two traversals. -/
theorem built_at (hrun : new.run host schedule = some p) {k v : ℕ} {reader : PrometheusReader}
    (hbuilt : (moment host schedule k).readers v = some reader) :
    ((moment host schedule k).timing.visitors v).Done
      ∧ ((moment host schedule k).scalars.visitors v).Done
      ∧ ∃ states : StateRegistry, ∃ order, reader = PrometheusReader.start (kept host.layout
        (captured (traversed ((moment host schedule k).timing.visitors v))
          (traversed ((moment host schedule k).scalars.visitors v)))) (states.snapshot order) := by
  obtain ⟨hsince, -⟩ := builtSince_run (v := v) (show new.run host [] = some new from rfl)
    (run_take hrun k) rfl
  obtain ⟨hdone, hdone', m, order, -, -, heq⟩ := hsince reader hbuilt
  exact ⟨hdone, hdone', _, order, heq⟩

/-- Traversals that are over stay as they are. -/
theorem done_run {p q : Process} {after : List Move} (hs : p.run host after = some q) {v : ℕ}
    (hdone : (p.timing.visitors v).Done) (hdone' : (p.scalars.visitors v).Done) :
    q.timing.visitors v = p.timing.visitors v ∧ q.scalars.visitors v = p.scalars.visitors v := by
  induction after generalizing p with
  | nil =>
    obtain rfl : p = q := Option.some.inj hs
    exact ⟨rfl, rfl⟩
  | cons move after ih =>
    rw [Process.run, List.foldlM_cons] at hs
    obtain ⟨next, hnext, hrest⟩ := Option.bind_eq_some_iff.mp hs
    obtain ⟨-, htiming, hscalars⟩ := (step_happens hnext).stays
    have hsame := htiming v hdone
    have hsame' := hscalars v hdone'
    obtain ⟨h, h'⟩ := ih hrest (by rw [hsame]; exact hdone) (by rw [hsame']; exact hdone')
    exact ⟨h.trans hsame, h'.trans hsame'⟩

/-- A reader that is begun when another has been built captures what that one has. -/
theorem traversed_later (hrun : new.run host schedule = some p) {j k : ℕ} (hjk : j ≤ k) {v w : ℕ}
    (hdone : ((moment host schedule j).timing.visitors v).Done)
    (hdone' : ((moment host schedule j).scalars.visitors v).Done)
    (hnew : (moment host schedule j).Unbegun w)
    (hlast : ((moment host schedule k).timing.visitors w).Done)
    (hlast' : ((moment host schedule k).scalars.visitors w).Done) :
    traversed ((moment host schedule j).timing.visitors v)
        ⊆ traversed ((moment host schedule k).timing.visitors w)
      ∧ traversed ((moment host schedule j).scalars.visitors v)
        ⊆ traversed ((moment host schedule k).scalars.visitors w) := by
  obtain ⟨before, before', hbefore, hbefore', -⟩ := run_turns (run_take hrun j)
  obtain ⟨after, after', hafter, hafter', -⟩ := run_turns (run_between hrun hjk)
  exact ⟨(traversed_grows hbefore hafter hdone hnew.timing hlast).subset,
    (traversed_grows hbefore' hafter' hdone' hnew.scalars hlast').subset⟩

end Slots

/-! ## Scrapes -/

/-- A scrape of a run. Reader number `v` is begun after the moment `start` and built by the moment
`ready`; load number `k` of its output is made at the moment `time k`, not after `finish`. -/
structure Scrape (host : Host) (schedule : List Move) where
  v : ℕ
  start : ℕ
  ready : ℕ
  finish : ℕ
  time : ℕ → ℕ
  reader : PrometheusReader
  unbegun : (moment host schedule start).Unbegun v
  start_le : start ≤ ready
  built : (moment host schedule ready).readers v = some reader
  loading : ∀ k, ready ≤ time k ∧ time k ≤ finish

namespace Scrape

variable {host : Host} {schedule : List Move} {p : Process} (self : Scrape host schedule)

/-- The memory at every load. -/
def loads (k : ℕ) : Memory := (moment host schedule (self.time k)).memory

/-- The timing entries and the scalar entries that the reader has captured. -/
def timing : List MetricMeta :=
  traversed ((moment host schedule self.ready).timing.visitors self.v)

def scalars : List ScalarMeta :=
  traversed ((moment host schedule self.ready).scalars.visitors self.v)

/-- The text of a scrape: lines that each have a memory of their own, in which every atomic holds
what it held at some load of the scrape. -/
theorem text (hrun : new.run host schedule = some p) (f64 : F64) :
    ∃ (states : StateRegistry) (order : IterOrder) (out : List (List UInt8 × ℕ)) (env : ℕ → Memory),
      Loads f64 self.loads 0 self.reader out
      ∧ out.map Prod.fst = (entries env 0 (exposition f64
          (kept host.layout (captured self.timing self.scalars)) (states.snapshot order))).map
            Entry.encode
      ∧ ∀ t atomic, ∃ k, env t atomic = self.loads k atomic := by
  obtain ⟨-, -, states, order, hreader⟩ := built_at hrun self.built
  obtain ⟨out, env, hloads, hstream, -, hwindow⟩ :=
    exists_loads f64 self.loads 0
      (PrometheusReader.valid_start (kept host.layout (captured self.timing self.scalars))
        (states.snapshot order)) (kept_separate host.layout self.timing self.scalars)
  have hlines := hstream.unique
    (streams_start host.layout (captured self.timing self.scalars) (states.snapshot order))
  have hlength := congrArg List.length hlines
  rw [List.length_map, List.length_map, length_entries] at hlength
  -- after the last line any memory will do
  refine ⟨states, order, out, fun t => if t < out.length then env t else self.loads 0, ?_, ?_, ?_⟩
  · rw [hreader]
    exact hloads
  · rw [hlines]
    exact congrArg (List.map Entry.encode)
      (entries_congr (fun t ht => (if_pos (hlength ▸ ht)).symm))
  · intro t atomic
    dsimp only
    split_ifs with ht
    · obtain ⟨k, -, -, hk⟩ := hwindow t ht atomic
      exact ⟨k, hk⟩
    · exact ⟨0, rfl⟩

end Scrape

/-- What the exported counters count. In every run of a process, for every scrape of it, however
registrations and updates go on while the reader is built and while it is read, one load at a time:
what it has captured includes the slots of all handles that were there when it was begun; no two of
its samples are one series; and each captured view has its sample in every counter family of its
kind. As long as what the begun calls add to each of the view's slots fits in a word, its total is
at least what the calls on the slots add that had returned when the reader was built, and at most
what those add that have begun when it has been read, cut off once at `u64::MAX`. -/
theorem exports_between (host : Host) (schedule : List Move) (p : Process)
    (hrun : new.run host schedule = some p) (s : Scrape host schedule) (f64 : F64) :
    ∃ (history : History) (out : List (List UInt8 × ℕ)) (es : List Entry),
      Captures (moment host schedule s.start) (moment host schedule s.ready) history
        s.timing s.scalars
      ∧ Loads f64 s.loads 0 s.reader out ∧ out.map Prod.fst = es.map Entry.encode
      ∧ (es.filterMap Entry.series).Nodup
      ∧ ∀ source ∈ captured s.timing s.scalars, ∀ family : Family, family.is_gauge = false →
        source.kind.supports family.val = true →
        ∃ total : UInt64,
          Entry.sample family.name source.view.labels (family.shown total) ∈ es
          ∧ ((∀ item ∈ view_slots (captured s.timing s.scalars) source.view,
              begun_amount schedule s.finish (item.atomic family.counter) ≤ U64_MAX) →
            min U64_MAX (∑ item ∈ view_slots (captured s.timing s.scalars) source.view,
                returned_amount host schedule s.ready (item.atomic family.counter)) ≤ total.toNat
            ∧ total.toNat ≤ min U64_MAX
                (∑ item ∈ view_slots (captured s.timing s.scalars) source.view,
                  begun_amount schedule s.finish (item.atomic family.counter))) := by
  obtain ⟨_, r, time, -, hrecords⟩ := exists_records hrun
  obtain ⟨states, order, out, env, hloads, hout, henv⟩ := s.text hrun f64
  obtain ⟨hdone, hdone', -⟩ := built_at hrun s.built
  obtain ⟨history, store, hrep, hreached⟩ := exists_store (run_take hrun s.ready)
  have hcaptures : Captures _ _ history s.timing s.scalars :=
    captures (run_take hrun s.start) (run_between hrun s.start_le) s.unbegun hdone hdone' hrep
      hreached (grows_run (run_between hrun s.start_le)).2
  refine ⟨history, out, _, hcaptures, hloads, hout, ?_, ?_⟩
  · rw [entries_series]
    exact exposition_series_nodup host.layout _ hcaptures.consistent f64 _ order
  intro source hsource family hcounter hsupports
  obtain ⟨⟨view, items⟩, hgroup, rfl⟩ := List.mem_map.mp
    ((mem_family_groups host.layout (captured s.timing s.scalars) family source.view).mpr
      ⟨⟨source, hsource, rfl⟩, hsupports⟩)
  obtain ⟨t, hsample⟩ := sample_of_group hgroup f64 env (states.snapshot order)
  rw [sample_value_counter hcounter] at hsample
  refine ⟨_, hsample, fun hfits => ?_⟩
  rw [group_value_kept host.layout _ (env t) family.counter family _ hgroup]
  -- slot by slot: the value of a load is between the two amounts
  have hslot : ∀ item ∈ view_slots (captured s.timing s.scalars) source.view,
      returned_amount host schedule s.ready (item.atomic family.counter)
          ≤ (item.count (env t) family.counter).toNat
        ∧ (item.count (env t) family.counter).toNat
          ≤ begun_amount schedule s.finish (item.atomic family.counter) := by
    intro item hitem
    obtain ⟨k, hk⟩ := henv t (item.atomic family.counter)
    obtain ⟨hready, hfinish⟩ := s.loading k
    have hbegun := begun_amount_mono schedule hfinish (item.atomic family.counter)
    obtain ⟨hlo, hhi⟩ := hrecords.between (k := s.time k)
      (counter_atomic hrun s.ready s.v hcounter hsupports hitem) (hbegun.trans (hfits _ hitem))
    rw [count_eq_atomic hcounter hsupports hitem, hk]
    exact ⟨(returned_amount_mono host schedule hready _).trans hlo, hhi.trans hbegun⟩
  exact ⟨min_le_min_left _ (Finset.sum_le_sum (fun item hitem => (hslot item hitem).1)),
    min_le_min_left _ (Finset.sum_le_sum (fun item hitem => (hslot item hitem).2))⟩

/-- A queue is counted on, scraped while it is counted on again, and scraped once more. -/
def queue_scraped : List Move :=
  queue_first ++ [.update 0 (.timing (.increment queue)), .apply 0, .apply 0]
    ++ List.replicate 260 (.read 0 .stored)
    ++ [.update 1 (.timing (.increment queue)), .apply 1]
    ++ List.replicate 260 (.read 1 .stored)

/-- Calls that count one occurrence each add at most as much as there are of them. -/
theorem begun_amount_increments {schedule : List Move}
    (h : ∀ c ∈ called schedule, ∃ metric, c.call = .increment metric) (k : ℕ) (atomic : Atomic) :
    begun_amount schedule k atomic ≤ (called schedule).length := by
  have hone : ∀ n ∈ ((called schedule).filter (fun c => c.moment < k)).map
      (fun c => c.call.amount atomic), n ≤ 1 := by
    intro n hn
    obtain ⟨c, hc, rfl⟩ := List.mem_map.mp hn
    obtain ⟨metric, hcall⟩ := h c (List.mem_of_mem_filter hc)
    rw [hcall]
    cases atomic with
    | scalar item => exact Nat.zero_le 1
    | slot item field =>
      rw [HandleCall.amount]
      split_ifs <;> simp
  have hsum := List.sum_le_card_nsmul _ _ hone
  rw [List.length_map, smul_eq_mul, mul_one] at hsum
  exact hsum.trans (List.length_filter_le _ _)

set_option maxRecDepth 4000 in
/-- Both occurrences fit in a word. -/
theorem queue_scraped_fits (k : ℕ) (atomic : Atomic) :
    begun_amount queue_scraped k atomic ≤ U64_MAX := by
  have hcalled : called queue_scraped
      = [⟨10, 0, .increment queue⟩, ⟨273, 1, .increment queue⟩] := by rfl
  have hincrements : ∀ c ∈ called queue_scraped, ∃ metric, c.call = .increment metric := by
    simp [hcalled]
  have hamount := begun_amount_increments hincrements k atomic
  rw [hcalled] at hamount
  exact hamount.trans (by decide)

set_option maxRecDepth 4000 in
/-- The two scrapes. The counter is loaded when the second occurrence has been counted, but its call
has not returned. -/
theorem queue_scrapes : ∃ s s' : Scrape Host.seedless queue_scraped,
    s.ready = 273 ∧ s.finish = 275 ∧ s'.start = 275 ∧ s'.finish = 535
      ∧ captured s.timing s.scalars = [⟨⟨"LOG", "queue", none⟩, .Full, .Timing queue.item⟩] := by
  obtain ⟨reader, hreader⟩ := Option.isSome_iff_exists.mp
    (show ((moment Host.seedless queue_scraped 273).readers 0).isSome = true by rfl)
  obtain ⟨reader', hreader'⟩ := Option.isSome_iff_exists.mp
    (show ((moment Host.seedless queue_scraped 535).readers 1).isSome = true by rfl)
  exact ⟨⟨0, 13, 273, 275, fun _ => 275, reader, ⟨rfl, rfl⟩, by decide, hreader,
      fun _ => by decide⟩,
    ⟨1, 275, 535, 535, fun _ => 535, reader', ⟨rfl, rfl⟩, by decide, hreader', fun _ => by decide⟩,
    rfl, rfl, rfl, rfl, rfl⟩

set_option maxRecDepth 4000 in
theorem queue_scraped_between : ∃ (s : Scrape Host.seedless queue_scraped)
    (out : List (List UInt8 × ℕ)) (es : List Entry) (labels : List (String × String))
    (total : UInt64),
    Loads F64.unread s.loads 0 s.reader out ∧ out.map Prod.fst = es.map Entry.encode
      ∧ Entry.sample "brz_req_total" labels (Decimal.ofNat total.toNat) ∈ es
      ∧ 1 ≤ total.toNat ∧ total.toNat ≤ 2 := by
  obtain ⟨p, hp⟩ := Option.isSome_iff_exists.mp
    (show (new.run Host.seedless queue_scraped).isSome = true by rfl)
  obtain ⟨s, -, hready, hfinish, -, -, hcaptured⟩ := queue_scrapes
  obtain ⟨-, out, es, -, hloads, hout, -, hbetween⟩ :=
    exports_between Host.seedless queue_scraped p hp s F64.unread
  obtain ⟨total, hsample, hbounds⟩ := hbetween _
    (by rw [hcaptured]; exact List.mem_singleton_self _) (⟨0, by decide⟩ : Family) (by decide)
    (by decide)
  obtain ⟨hlo, hhi⟩ := hbounds (fun item _ => queue_scraped_fits s.finish _)
  rw [hcaptured, hready] at hlo
  rw [hcaptured, hfinish] at hhi
  exact ⟨s, out, es, _, total, hloads, hout, hsample,
    (show 1 ≤ _ by decide).trans hlo, hhi.trans (show _ ≤ 2 by decide)⟩

/-- A counter series never goes backwards or vanishes from one scrape of a running process to the
next, whatever is registered and updated before, between and during the two, as long as what all
calls begun by the end add to any counter fits in a word: if the second reader is begun when the
first has been read, every sample of the first in a counter family is in the second with the same
labels, and its value is at least what it was, also after rounding. Gauges that are set meanwhile do
not disturb that. -/
theorem exports_monotone (host : Host) (schedule : List Move) (p : Process)
    (hrun : new.run host schedule = some p) (s s' : Scrape host schedule)
    (hafter : s.finish ≤ s'.start) (f64 : F64)
    (hfits : ∀ atomic, begun_amount schedule s'.finish atomic ≤ U64_MAX) :
    ∃ (out out' : List (List UInt8 × ℕ)) (es es' : List Entry),
      Loads f64 s.loads 0 s.reader out ∧ out.map Prod.fst = es.map Entry.encode
      ∧ Loads f64 s'.loads 0 s'.reader out' ∧ out'.map Prod.fst = es'.map Entry.encode
      ∧ ∀ family : Family, family.is_gauge = false → ∀ labels value,
        Entry.sample family.name labels value ∈ es →
        ∃ value', Entry.sample family.name labels value' ∈ es' ∧ value.toRat ≤ value'.toRat := by
  obtain ⟨_, r, time, -, hrecords⟩ := exists_records hrun
  obtain ⟨states, order, out, env, hloads, hout, henv⟩ := s.text hrun f64
  obtain ⟨states', order', out', env', hloads', hout', henv'⟩ := s'.text hrun f64
  refine ⟨out, out', _, _, hloads, hout, hloads', hout', ?_⟩
  intro family hcounter labels value hsample
  obtain ⟨t, view, items, hgroup, rfl, rfl⟩ := group_of_sample hsample
  -- the second reader has captured the view, with more slots
  have hready := (s.loading 0).1.trans (s.loading 0).2
  obtain ⟨hdone, hdone', -⟩ := built_at hrun s.built
  obtain ⟨hlast, hlast', -⟩ := built_at hrun s'.built
  obtain ⟨hkept, hkept'⟩ := done_run (run_between hrun (hready.trans hafter)) hdone hdone'
  obtain ⟨htiming, hscalars⟩ : s.timing ⊆ s'.timing ∧ s.scalars ⊆ s'.scalars := by
    rw [Scrape.timing, Scrape.scalars, ← hkept, ← hkept']
    exact traversed_later hrun s'.start_le (by rw [hkept]; exact hdone)
      (by rw [hkept']; exact hdone') s'.unbegun hlast hlast'
  obtain ⟨hcaptured, hsupports⟩ :=
    (mem_family_groups host.layout _ family view).mp (List.mem_map_of_mem hgroup)
  have hslots := view_slots_mono htiming hscalars view
  have hcaptured' : ∃ source ∈ captured s'.timing s'.scalars, source.view = view := by
    refine exists_captured.mpr ((exists_captured.mp hcaptured).imp ?_ ?_)
    · exact fun ⟨m, hm, hview⟩ => ⟨m, htiming hm, hview⟩
    · exact fun ⟨m, hm, hview⟩ => ⟨m, hscalars hm, hview⟩
  obtain ⟨⟨view', items'⟩, hgroup', rfl⟩ := List.mem_map.mp
    ((mem_family_groups host.layout _ family view).mpr ⟨hcaptured', hsupports⟩)
  obtain ⟨t', hsample'⟩ := sample_of_group hgroup' f64 env' (states'.snapshot order')
  refine ⟨_, hsample', sample_value_mono hcounter ?_⟩
  rw [group_value_kept host.layout _ (env t) family.counter family _ hgroup,
    group_value_kept host.layout _ (env' t') family.counter family _ hgroup']
  refine min_le_min_left _ ((Finset.sum_le_sum (fun item hitem => ?_)).trans
    (Finset.sum_le_sum_of_subset hslots))
  -- slot by slot: the load of the second reader comes after that of the first
  obtain ⟨k, hk⟩ := henv t (item.atomic family.counter)
  obtain ⟨k', hk'⟩ := henv' t' (item.atomic family.counter)
  have hlater : s.time k ≤ s'.time k' :=
    (((s.loading k).2.trans hafter).trans s'.start_le).trans (s'.loading k').1
  rw [count_eq_atomic hcounter hsupports hitem, count_eq_atomic hcounter hsupports hitem, hk, hk']
  exact hrecords.monotone hlater (counter_atomic hrun s.ready s.v hcounter hsupports hitem)
    ((begun_amount_mono schedule (s'.loading k').2 _).trans (hfits _))

set_option maxRecDepth 4000 in
theorem queue_scraped_monotone : ∃ s s' : Scrape Host.seedless queue_scraped,
    s.finish = s'.start
      ∧ ∃ (out out' : List (List UInt8 × ℕ)) (es es' : List Entry),
        Loads F64.unread s.loads 0 s.reader out ∧ out.map Prod.fst = es.map Entry.encode
        ∧ Loads F64.unread s'.loads 0 s'.reader out' ∧ out'.map Prod.fst = es'.map Entry.encode
        ∧ ∀ labels value, Entry.sample "brz_req_total" labels value ∈ es →
          ∃ value', Entry.sample "brz_req_total" labels value' ∈ es'
            ∧ value.toRat ≤ value'.toRat := by
  obtain ⟨p, hp⟩ := Option.isSome_iff_exists.mp
    (show (new.run Host.seedless queue_scraped).isSome = true by rfl)
  obtain ⟨s, s', -, hfinish, hstart, -, -⟩ := queue_scrapes
  obtain ⟨out, out', es, es', hloads, hout, hloads', hout', hmono⟩ :=
    exports_monotone Host.seedless queue_scraped p hp s s' (by omega) F64.unread
      (fun atomic => queue_scraped_fits s'.finish atomic)
  exact ⟨s, s', by omega, out, out', es, es', hloads, hout, hloads', hout',
    hmono ⟨0, by decide⟩ (by decide)⟩

end Process

end BrzMetrics
