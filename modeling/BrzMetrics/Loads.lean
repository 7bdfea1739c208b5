/-
A reader that loads one atomic at a time.

`next_sample` merges the slots of a group in a loop, and each turn of the loop loads
one atomic. Updates may come between two loads of a line: a line is not read from
one memory. `next_loads` is `next_sample` with load number `k` made in `loads k`,
and `Loads` is the stream that its repeated calls give.

Such a stream is nevertheless one of `Streams`, where every line has a memory of its
own (`loads_compose`). A group lists each of its slots once, so no line loads an
atomic twice, and the memory in which every atomic has the value of its own load
gives the same line. It holds no value that was not there at some load of that line.
What is known of `Streams` for any memories is therefore known of single loads.
-/
import BrzMetrics.ScalarCalls

set_option autoImplicit false

namespace BrzMetrics

open SortBy TextFormat

/-! ## The code, load by load -/

namespace PrometheusReader

/-- The loop that merges the sources of one output and kind, with its first load as number `n`. -/
def merge_loads (loads : ℕ → Memory) (counter : Counter) (sources : List Source)
    (output : ProfileOutput) (kind : SourceKind) (source : ℕ) (value : UInt64) (gauge : Int64)
    (n : ℕ) : ℕ × UInt64 × Int64 × ℕ :=
  if h : source < sources.length then
    if sources[source].output = output ∧ sources[source].kind = kind then
      match sources[source].item with
      | .Timing item =>
        merge_loads loads counter sources output kind (source + 1)
          (saturating_add_u64 value (counter.read (loads n) item)) gauge (n + 1)
      | .Counter item =>
        merge_loads loads counter sources output kind (source + 1)
          (saturating_add_u64 value (item.read (loads n))) gauge (n + 1)
      | .Gauge item =>
        merge_loads loads counter sources output kind (source + 1) value
          (saturating_add_i64 gauge (item.read (loads n)).toInt64) (n + 1)
    else (source, value, gauge, n)
  else (source, value, gauge, n)
termination_by sources.length - source

/-- The loop over the families. It returns the number of the next load, too. -/
def next_family_loads (loads : ℕ → Memory) (n : ℕ) (self : PrometheusReader) :
    Bool × PrometheusReader × ℕ :=
  if h : self.family < FAMILIES.length then
    let (name, counter, seconds) := FAMILIES[self.family]
    if !self.header then
      let mode := if self.family ≥ 8 then "gauge" else "counter"
      (true, { self with header := true, buffer := write_type self.buffer name mode }, n)
    else
      let source := skip_unsupported self.sources self.family self.source
      if hs : source < self.sources.length then
        let output := self.sources[source].output
        let kind := self.sources[source].kind
        let (source, value, gauge, n) :=
          merge_loads loads counter self.sources output kind source 0 0 n
        let buffer := write_series self.buffer name output kind
        let buffer := write_value buffer self.family seconds value gauge
        (true, { self with source := source, buffer := buffer }, n)
      else
        next_family_loads loads n
          { self with family := self.family + 1, source := 0, header := false }
  else (false, self, n)
termination_by FAMILIES.length - self.family

/-- `PrometheusReader::next_sample`. The states are the reader's own: their lines load nothing. -/
def next_loads (f64 : F64) (loads : ℕ → Memory) (n : ℕ) (self : PrometheusReader) :
    Option (Bool × PrometheusReader × ℕ) :=
  match next_family_loads loads n { self with buffer := [], offset := 0 } with
  | (true, self, n) => some (true, self, n)
  | (false, self, n) =>
    if !self.header then
      some (true, { self with header := true,
                              buffer := self.buffer ++ bytes "# TYPE brz_rpc_state gauge\n" }, n)
    else (next_state_sample f64 self).map (fun (more, after) => (more, after, n))

end PrometheusReader

/-- Calling `next_sample` again and again, from load number `n` on. Every line comes with the
number of loads made when it is there. -/
inductive Loads (f64 : F64) (loads : ℕ → Memory) :
    ℕ → PrometheusReader → List (List UInt8 × ℕ) → Prop where
  | done {n n' : ℕ} {r r' : PrometheusReader}
      (hnext : PrometheusReader.next_loads f64 loads n r = some (false, r', n')) :
      Loads f64 loads n r []
  | more {n n' : ℕ} {r r' : PrometheusReader} {out : List (List UInt8 × ℕ)}
      (hnext : PrometheusReader.next_loads f64 loads n r = some (true, r', n'))
      (hrest : Loads f64 loads n' r' out) : Loads f64 loads n r ((r'.buffer, n') :: out)

/-! ## A memory for every line -/

/-- The atomic that a slot is loaded from. -/
def SourceItem.atomic (counter : BrzMetrics.Counter) : SourceItem → Atomic
  | .Timing item => .slot item counter.field
  | .Counter item | .Gauge item => .scalar item

/-- Every value of a memory was there at one of the loads from `n` on and before `n'`. -/
def Glimpsed (loads : ℕ → Memory) (n n' : ℕ) (memory : Memory) : Prop :=
  ∀ atomic, ∃ k, n ≤ k ∧ (k < n' ∨ k = n) ∧ memory atomic = loads k atomic

theorem glimpsed_first (loads : ℕ → Memory) (n n' : ℕ) : Glimpsed loads n n' (loads n) :=
  fun _ => ⟨n, le_refl n, .inr rfl, rfl⟩

/-- Loads of different atomics are those of one memory. -/
theorem exists_glimpsed (loads : ℕ → Memory) (n : ℕ) {atomics : List Atomic}
    (h : atomics.Nodup) :
    ∃ memory, Glimpsed loads n (n + atomics.length) memory
      ∧ ∀ i (hi : i < atomics.length), memory atomics[i] = loads (n + i) atomics[i] := by
  refine ⟨fun atomic => if atomic ∈ atomics then loads (n + atomics.idxOf atomic) atomic
    else loads n atomic, fun atomic => ?_, fun i hi => ?_⟩
  · by_cases hmem : atomic ∈ atomics
    · have hlt := List.idxOf_lt_length_iff.mpr hmem
      exact ⟨n + atomics.idxOf atomic, by omega, .inl (by omega), if_pos hmem⟩
    · exact ⟨n, le_refl n, .inr rfl, if_neg hmem⟩
  · dsimp only
    rw [if_pos (List.getElem_mem hi), h.idxOf_getElem]

/-- Sources of one view are loaded from different atomics, whichever counter is asked for. -/
def Separate (sources : List Source) : Prop :=
  sources.Pairwise (fun a b => a.view = b.view →
    ∀ counter, a.item.atomic counter ≠ b.item.atomic counter)

namespace PrometheusReader

/-- Merging load by load is merging in a memory that has the loaded values. -/
theorem merge_loads_eq (loads : ℕ → Memory) (memory : Memory) (counter : Counter)
    (sources : List Source) (output : ProfileOutput) (kind : SourceKind) (source : ℕ)
    (value : UInt64) (gauge : Int64) (n : ℕ)
    (h : ∀ i item, (((sources.drop source).takeWhile (fun s => s.view = ⟨output, kind⟩)).map
        Source.item)[i]? = some item →
      memory (item.atomic counter) = loads (n + i) (item.atomic counter)) :
    merge_loads loads counter sources output kind source value gauge n
      = let (source', value', gauge') := merge memory counter sources output kind source value gauge
        (source', value', gauge',
          n + ((sources.drop source).takeWhile (fun s => s.view = ⟨output, kind⟩)).length) := by
  fun_induction merge_loads loads counter sources output kind source value gauge n with
  | case1 source value gauge n hlt hview item hitem ih
  | case2 source value gauge n hlt hview item hitem ih
  | case3 source value gauge n hlt hview item hitem ih =>
    -- the first load of the run, and then the others
    rw [run_cons hlt hview] at h
    have hfirst := h 0 _ rfl
    have hrest := ih (fun i item hi => by
      rw [h (i + 1) item hi, Nat.add_right_comm, Nat.add_assoc])
    rw [hitem, SourceItem.atomic, Nat.add_zero] at hfirst
    rw [hrest, merge_eq, merge_eq, run_cons hlt hview]
    simp only [List.map_cons, List.foldl_cons, hitem, SourceItem.count, SourceItem.level,
      Counter.read, ScalarPtr.read, hfirst, saturating_add_u64_zero, saturating_add_i64_zero,
      List.length_cons]
    rw [Nat.add_assoc, Nat.add_assoc, Nat.add_comm 1]
  | case4 source value gauge n hlt hview =>
    rw [merge, dif_pos hlt, if_neg hview, run_stop (fun hin => hin.elim (fun _ h' => hview h'))]
    rfl
  | case5 source value gauge n hlt =>
    rw [merge, dif_neg hlt, run_stop (fun hin => hin.elim (fun h' _ => hlt h'))]
    rfl

/-- A line of a family is encoded as if it had been read from one memory. -/
theorem next_family_loads_spec (loads : ℕ → Memory) (n : ℕ) (self : PrometheusReader)
    (hsep : Separate self.sources) :
    ∃ memory, Glimpsed loads n (next_family_loads loads n self).2.2 memory
      ∧ next_family_sample memory self
        = ((next_family_loads loads n self).1, (next_family_loads loads n self).2.1)
      ∧ n ≤ (next_family_loads loads n self).2.2
      ∧ (next_family_loads loads n self).2.1.sources = self.sources := by
  fun_induction next_family_loads loads n self with
  | case1 self hlt name counter seconds hfam hheader mode =>
    refine ⟨loads n, glimpsed_first loads n n, ?_, le_refl n, rfl⟩
    rw [next_family_sample, dif_pos hlt, hfam]
    simp only [hheader, if_true]
    rfl
  | case2 self hlt name counter seconds hfam hheader source hs output kind source' value gauge n'
      hm buffer buffer' =>
    -- the atomics of the run differ, as its sources do
    have hnodup : ((((self.sources.drop source).takeWhile
        (fun s => s.view = ⟨output, kind⟩)).map Source.item).map
          (SourceItem.atomic counter)).Nodup := by
      have hrun := (List.takeWhile_sublist (fun s : Source => decide (s.view = ⟨output, kind⟩))
        (l := self.sources.drop source)).trans (List.drop_sublist _ _)
      rw [List.map_map]
      refine List.pairwise_map.mpr ((hsep.sublist hrun).imp_of_mem ?_)
      intro a b ha hb hne
      have hview : ∀ s ∈ (self.sources.drop source).takeWhile
          (fun s => s.view = ⟨output, kind⟩), s.view = ⟨output, kind⟩ :=
        fun s hs => by simpa using List.mem_takeWhile_imp hs
      exact hne ((hview a ha).trans (hview b hb).symm) counter
    obtain ⟨memory, hglimpsed, hloads⟩ := exists_glimpsed loads n hnodup
    rw [merge_loads_eq loads memory counter self.sources output kind source 0 0 n (fun i item hi => by
      obtain ⟨hlt, hitem⟩ := List.getElem?_eq_some_iff.mp hi
      have := hloads i (by rwa [List.length_map])
      rwa [List.getElem_map, hitem] at this)] at hm
    simp only [Prod.mk.injEq] at hm
    obtain ⟨rfl, rfl, rfl, rfl⟩ := hm
    rw [List.length_map, List.length_map] at hglimpsed
    refine ⟨memory, hglimpsed, ?_, Nat.le_add_right _ _, rfl⟩
    rw [next_family_sample, dif_pos hlt, hfam]
    simp only [hheader]
    rw [if_neg Bool.false_ne_true, dif_pos hs]
  | case3 self hlt name counter seconds hfam hheader source hs ih =>
    obtain ⟨memory, hglimpsed, hnext, hle, hsources⟩ := ih hsep
    refine ⟨memory, hglimpsed, ?_, hle, hsources⟩
    rw [next_family_sample, dif_pos hlt, hfam]
    simp only [hheader]
    rw [if_neg Bool.false_ne_true, dif_neg hs]
    exact hnext
  | case4 self hge =>
    refine ⟨loads n, glimpsed_first loads n n, ?_, le_refl n, rfl⟩
    rw [next_family_sample, dif_neg hge]

/-- The loop over the states leaves the sources alone. -/
theorem next_state_sample_sources (f64 : F64) (self : PrometheusReader) {more : Bool}
    {after : PrometheusReader} (h : next_state_sample f64 self = some (more, after)) :
    after.sources = self.sources := by
  fun_induction next_state_sample f64 self with
  | case1 self hlt state hend ih => exact ih h
  | case2 self hlt state hend hnone => cases h
  | case3 self hlt state hend field value hfield hparse ih => exact ih h
  | case4 self hlt state hend field value hfield value' hparse hfinite ih => exact ih h
  | case5 self hlt state hend field value hfield value' hparse hfinite =>
    obtain ⟨-, rfl⟩ := Prod.mk.inj (Option.some.inj h)
    rfl
  | case6 self hge =>
    obtain ⟨-, rfl⟩ := Prod.mk.inj (Option.some.inj h)
    rfl

/-- A line is encoded as if it had been read from one memory, in which every value was there at
some load of the line. -/
theorem next_loads_spec (f64 : F64) (loads : ℕ → Memory) (n : ℕ) (self : PrometheusReader)
    (hsep : Separate self.sources) :
    ∃ memory, next_sample f64 memory self
        = (next_loads f64 loads n self).map (fun result => (result.1, result.2.1))
      ∧ ∀ more after n', next_loads f64 loads n self = some (more, after, n') →
        Glimpsed loads n n' memory ∧ n ≤ n' ∧ after.sources = self.sources := by
  obtain ⟨memory, hglimpsed, hnext, hle, hsources⟩ :=
    next_family_loads_spec loads n { self with buffer := [], offset := 0 } hsep
  rw [next_loads]
  generalize next_family_loads loads n { self with buffer := [], offset := 0 } = result at *
  obtain ⟨more, middle, n'⟩ := result
  refine ⟨memory, ?_⟩
  rw [next_sample, hnext]
  cases more with
  | true =>
    refine ⟨rfl, fun more after n'' h => ?_⟩
    obtain ⟨-, rfl, rfl⟩ := by simpa only [Option.some.injEq, Prod.mk.injEq] using h
    exact ⟨hglimpsed, hle, hsources⟩
  | false =>
    cases hheader : middle.header with
    | false =>
      simp only [hheader]
      refine ⟨rfl, fun more after n'' h => ?_⟩
      rw [Bool.not_false, if_pos rfl] at h
      obtain ⟨-, rfl, rfl⟩ := by simpa only [Option.some.injEq, Prod.mk.injEq] using h
      exact ⟨hglimpsed, hle, hsources⟩
    | true =>
      simp only [hheader]
      rw [Bool.not_true, if_neg Bool.false_ne_true, if_neg Bool.false_ne_true]
      refine ⟨by rw [Option.map_map]; exact Option.map_id'.symm, fun more after n'' h => ?_⟩
      obtain ⟨⟨more', after'⟩, hstate, heq⟩ := Option.map_eq_some_iff.mp h
      obtain ⟨rfl, rfl, rfl⟩ := by simpa only [Prod.mk.injEq] using heq
      exact ⟨hglimpsed, hle, (next_state_sample_sources f64 middle hstate).trans hsources⟩

end PrometheusReader

/-! ## Streams -/

section Streams

variable {f64 : F64} {loads : ℕ → Memory}

/-- A stream depends on the memories from its first call on only. -/
theorem Streams.shift {env env' : ℕ → Memory} {t t' : ℕ} {r : PrometheusReader}
    {bs : List (List UInt8)} (h : Streams f64 env t r bs)
    (henv : ∀ i, env' (t' + i) = env (t + i)) : Streams f64 env' t' r bs := by
  induction h generalizing t' with
  | done hnext => exact .done (by rw [show env' t' = env _ from henv 0]; exact hnext)
  | more hnext _ ih =>
    refine .more (by rw [show env' t' = env _ from henv 0]; exact hnext) (ih (fun i => ?_))
    · rw [Nat.add_assoc, henv, Nat.add_assoc]

/-- Entries depend on the memories of their own lines only. -/
theorem entries_congr {env env' : ℕ → Memory} {lines : List Line}
    (h : ∀ t < lines.length, env t = env' t) : entries env 0 lines = entries env' 0 lines := by
  rw [entries, entries]
  refine List.ext_getElem (by rw [List.length_mapIdx, List.length_mapIdx]) (fun t ht _ => ?_)
  rw [List.length_mapIdx] at ht
  rw [List.getElem_mapIdx, List.getElem_mapIdx, Nat.zero_add, h t ht]

/-- Where the loads of line `t` begin, and where they end. -/
def window (n : ℕ) (out : List (List UInt8 × ℕ)) (t : ℕ) : ℕ × ℕ :=
  ((n :: out.map Prod.snd).getD t 0, (out.map Prod.snd).getD t 0)

variable (f64 loads) in
/-- Every reader has a stream of single loads, and it is one of lines that have a memory each. -/
theorem exists_loads (n : ℕ) {r : PrometheusReader} (h : r.Valid) (hsep : Separate r.sources) :
    ∃ out env, Loads f64 loads n r out ∧ Streams f64 env 0 r (out.map Prod.fst)
      ∧ (n :: out.map Prod.snd).Pairwise (· ≤ ·)
      ∧ ∀ t < out.length, Glimpsed loads (window n out t).1 (window n out t).2 (env t) := by
  generalize hlines : r.lines f64 = lines
  induction lines generalizing n r with
  | nil =>
    obtain ⟨memory, hnext, -⟩ := PrometheusReader.next_loads_spec f64 loads n r hsep
    obtain ⟨more, after, hsample, -, -, hend⟩ :=
      PrometheusReader.next_sample_spec f64 memory r h
    rw [hlines] at hend
    obtain ⟨rfl, -, -⟩ := hend
    rw [hsample] at hnext
    obtain ⟨⟨more, after', n'⟩, hloads, heq⟩ := Option.map_eq_some_iff.mp hnext.symm
    obtain ⟨rfl, rfl⟩ := Prod.mk.inj heq
    exact ⟨[], fun _ => memory, .done hloads, .done hsample, List.pairwise_singleton _ _,
      fun t ht => absurd ht (Nat.not_lt_zero t)⟩
  | cons line lines ih =>
    obtain ⟨memory, hnext, hspec⟩ := PrometheusReader.next_loads_spec f64 loads n r hsep
    obtain ⟨more, after, hsample, hvalid, -, htakes⟩ :=
      PrometheusReader.next_sample_spec f64 memory r h
    rw [hlines] at htakes
    obtain ⟨rfl, -, hrest⟩ := htakes
    rw [hsample] at hnext
    obtain ⟨⟨more, after', n'⟩, hloads, heq⟩ := Option.map_eq_some_iff.mp hnext.symm
    obtain ⟨rfl, rfl⟩ := Prod.mk.inj heq
    obtain ⟨hglimpsed, hle, hsources⟩ := hspec _ _ _ hloads
    obtain ⟨out, env, hout, hstream, hsorted, hwindow⟩ :=
      ih n' hvalid (by rw [hsources]; exact hsep) hrest
    refine ⟨(after'.buffer, n') :: out, fun t => if t = 0 then memory else env (t - 1),
      .more hloads hout, .more hsample (hstream.shift (fun i => ?_)), ?_, fun t ht => ?_⟩
    · rw [if_neg (by omega), Nat.zero_add, Nat.zero_add, Nat.add_sub_cancel_left]
    · refine List.pairwise_cons.mpr ⟨fun k hk => ?_, hsorted⟩
      rcases List.mem_cons.mp hk with rfl | hk
      · exact hle
      · exact hle.trans (List.rel_of_pairwise_cons hsorted hk)
    · cases t with
      | zero => exact hglimpsed
      | succ t =>
        dsimp only
        rw [if_neg (Nat.succ_ne_zero t)]
        exact hwindow t (Nat.lt_of_succ_lt_succ ht)

end Streams

/-- Scalar slots with one view are of one kind of handle. -/
theorem mode_of_view {m m' : ScalarMeta} (h : m.view = m'.view) : m.mode = m'.mode := by
  have hgauge : ∀ {a b : ScalarMeta}, a.view = b.view → a.mode = .Gauge → b.mode = .Gauge := by
    intro a b hview ha
    obtain ⟨hfamily, -, hsupports⟩ := gauge_family_spec a.kind.is_conn
    rw [← a.view_of_gauge ha] at hsupports
    exact gauge_mode hfamily hsupports hview.symm
  cases hm : m.mode with
  | Gauge => exact (hgauge h hm).symm
  | Counter =>
    cases hm' : m'.mode with
    | Counter => rfl
    | Gauge => exact absurd ((hgauge h.symm hm').symm.trans hm) (by decide)

/-- A scalar slot is loaded from its one atomic, as a counter or as a gauge. -/
theorem source_item_atomic (m : ScalarMeta) (counter : Counter) :
    m.source_item.atomic counter = .scalar m.item := by
  rw [source_item_eq]
  cases m.mode <;> rfl

/-- Captured sources of one view that are loaded from one atomic are the same source. -/
theorem captured_separate {timing : List MetricMeta} {scalars : List ScalarMeta} {a b : Source}
    (ha : a ∈ captured timing scalars) (hb : b ∈ captured timing scalars) (hview : a.view = b.view)
    {counter : Counter} (hatomic : a.item.atomic counter = b.item.atomic counter) : a = b := by
  have hitem : a.item = b.item := by
    rcases (mem_view_slots_captured.mp ((mem_view_slots _).mpr ⟨a, ha, rfl, rfl⟩)) with
      ⟨m, -, -, hm⟩ | ⟨m, -, hmview, hm⟩ <;>
    rcases (mem_view_slots_captured.mp ((mem_view_slots _).mpr ⟨b, hb, rfl, rfl⟩)) with
      ⟨m', -, -, hm'⟩ | ⟨m', -, hmview', hm'⟩ <;>
    rw [hm, hm'] at hatomic ⊢
    · exact congrArg SourceItem.Timing (Atomic.slot.inj hatomic).1
    · rw [source_item_atomic] at hatomic
      exact Atomic.noConfusion hatomic
    · rw [source_item_atomic] at hatomic
      exact Atomic.noConfusion hatomic
    · -- a counter and a gauge on one slot would have different kinds
      rw [source_item_atomic, source_item_atomic] at hatomic
      rw [source_item_eq, source_item_eq, mode_of_view (hmview.trans (hview.trans hmview'.symm)),
        Atomic.scalar.inj hatomic]
  obtain ⟨output, kind, item⟩ := a
  obtain ⟨output', kind', item'⟩ := b
  obtain ⟨rfl, rfl⟩ := View.mk.inj hview
  rw [show item = item' from hitem]

/-- A reader keeps each source once, so what it merges it loads from different atomics. -/
theorem kept_separate (layout : Layout) (timing : List MetricMeta) (scalars : List ScalarMeta) :
    Separate (kept layout (captured timing scalars)) := by
  refine (kept_nodup layout _).imp_of_mem (fun ha hb hne hview counter hatomic => hne ?_)
  exact captured_separate ((mem_kept layout _).mp ha) ((mem_kept layout _).mp hb) hview hatomic

/-- Reading one atomic at a time is reading every line from a memory of its own. For any captured
slots and any memories at the single loads, the reader's stream of single loads is there, and it is
that of line-by-line memories in which every atomic has the value it had at one of the loads of that
very line: no line shows a value from before its first load or after its last, and if nothing is
updated meanwhile it shows that memory. -/
theorem PrometheusReader.loads_compose (f64 : F64) (loads : ℕ → Memory) (layout : Layout)
    (timing : List MetricMeta) (scalars : List ScalarMeta) (states : List StateSnapshot) :
    ∃ out env,
      Loads f64 loads 0 (start (kept layout (captured timing scalars)) states) out
      ∧ Streams f64 env 0 (start (kept layout (captured timing scalars)) states) (out.map Prod.fst)
      ∧ out.map Prod.fst = (entries env 0
          (exposition f64 (kept layout (captured timing scalars)) states)).map Entry.encode
      ∧ (0 :: out.map Prod.snd).Pairwise (· ≤ ·)
      ∧ (∀ t < out.length, Glimpsed loads (window 0 out t).1 (window 0 out t).2 (env t))
      ∧ ∀ memory, (∀ k, loads k = memory) → out.map Prod.fst
          = ((exposition f64 (kept layout (captured timing scalars)) states).map
              (Line.entry memory)).map Entry.encode := by
  obtain ⟨out, env, hloads, hstream, hsorted, hwindow⟩ :=
    exists_loads f64 loads 0
      (valid_start (kept layout (captured timing scalars)) states)
      (kept_separate layout timing scalars)
  have hlines := hstream.unique (streams_start layout (captured timing scalars) states)
  refine ⟨out, env, hloads, hstream, hlines, hsorted, hwindow, fun memory hmemory => ?_⟩
  -- at rest all loads see the one memory, and so does every line
  have hlength : out.length
      = (exposition f64 (kept layout (captured timing scalars)) states).length := by
    have := congrArg List.length hlines
    rwa [List.length_map, List.length_map, length_entries] at this
  rw [hlines, ← entries_const memory 0]
  refine congrArg (List.map Entry.encode)
    (entries_congr (fun t ht => funext (fun atomic => ?_)))
  obtain ⟨k, -, -, hk⟩ := hwindow t (hlength ▸ ht) atomic
  rw [hk, hmemory k]

end BrzMetrics
