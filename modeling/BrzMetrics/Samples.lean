/-
How many lines a reader emits.

A reader stands at some line of its exposition. `next_sample` moves it one line
on, and both `read` and `poll_read` do nothing to it but call `next_sample` and
advance within the buffer, so every position a reader gets into is `Reached` by
these two. At each of them the number of lines left is what a new reader has to
emit, less the calls made so far (`Reached.lines_left`). The loops of
`next_sample` are functions, so they end; what is shown here is that they do not
run out of a list and how often they find something.
-/
import BrzMetrics.Read
import BrzMetrics.StateRecords

set_option autoImplicit false

namespace BrzMetrics

open SortBy TextFormat

/-! ## Counting the lines -/

/-- The samples of the families: every family with every group of a kind it supports. -/
def supported_pairs (sources : List Source) : List (Family × View × List Source) :=
  ((List.finRange FAMILIES.length).product (groups Source.view sources)).filter
    (fun pair => pair.2.1.kind.supports pair.1.val)

/-- The samples of the states: every field whose value is a finite number. -/
def finite_fields (f64 : F64) (states : List StateSnapshot) :
    List (StateSnapshot × String × String) :=
  (captured_fields states).filter
    (fun field => ((f64.parse field.2.2).filter f64.is_finite).isSome)

/-- All lines: eleven `TYPE` lines and the samples. -/
def total_samples (f64 : F64) (sources : List Source) (states : List StateSnapshot) : ℕ :=
  11 + (supported_pairs sources).length + (finite_fields f64 states).length

theorem length_state_lines (f64 : F64) (states : List StateSnapshot) :
    (state_lines f64 states).length = (finite_fields f64 states).length := by
  rw [state_lines_eq, finite_fields, List.length_filterMap_eq_countP, List.countP_eq_length_filter]
  refine congrArg List.length (List.filter_congr (fun field _ => ?_))
  rw [state_line, Option.isSome_map]

/-- The families' lines are their `TYPE` lines and the supported pairs. -/
theorem length_parts_from (sources : List Source) :
    (parts_from sources 0).length = FAMILIES.length + (supported_pairs sources).length := by
  have hpairs : (supported_pairs sources).length
      = ((List.finRange FAMILIES.length).map (fun family =>
          (family_lines sources family).length)).sum := by
    rw [supported_pairs, List.product, List.filter_flatMap, List.length_flatMap]
    refine congrArg List.sum (List.map_congr_left (fun family _ => ?_))
    rw [List.filter_map, List.length_map, family_lines, List.length_map]
    rfl
  have hparts : ∀ l : List Family, (l.flatMap (family_part sources)).length
      = l.length + (l.map (fun family => (family_lines sources family).length)).sum := by
    intro l
    induction l with
    | nil => rfl
    | cons family l ih =>
      rw [List.flatMap_cons, List.length_append, ih, family_part, List.length_cons,
        List.length_cons, List.map_cons, List.sum_cons]
      omega
  rw [parts_from, List.drop_zero, hparts, List.length_finRange, hpairs]

theorem length_exposition (f64 : F64) (sources : List Source) (states : List StateSnapshot) :
    (exposition f64 sources states).length = total_samples f64 sources states := by
  have hfamilies : FAMILIES.length = 10 := rfl
  rw [exposition, List.length_append, List.length_cons, length_parts_from, length_state_lines,
    total_samples, hfamilies]
  omega

/-- Only the kinds of the groups count. -/
theorem length_supported_pairs (sources : List Source) :
    (supported_pairs sources).length
      = (((List.finRange FAMILIES.length).product
          ((groups Source.view sources).map (fun g => g.1.kind))).filter
            (fun p => p.2.supports p.1.val)).length := by
  simp only [supported_pairs, List.product, List.filter_flatMap, List.length_flatMap,
    List.filter_map, List.length_map]
  rfl

/-! ## The positions of a reader -/

namespace Reading

/-- What a reader can have come to: calls of `next_sample`, and advances within the buffer. -/
inductive Reached (f64 : F64) (env : ℕ → Memory) (sources : List Source)
    (states : List StateSnapshot) : Reading → Prop where
  | start : Reached f64 env sources states
      { time := 0, reader := PrometheusReader.start sources states }
  | sample {r : Reading} {more : Bool} {after : PrometheusReader}
      (h : Reached f64 env sources states r)
      (hnext : PrometheusReader.next_sample f64 (env r.time) r.reader = some (more, after)) :
      Reached f64 env sources states { time := r.time + 1, reader := after }
  | advance {r after : Reading} {n : ℕ} {bytes : List UInt8}
      (h : Reached f64 env sources states r) (hadvance : advance n r = some (bytes, after)) :
      Reached f64 env sources states after

/-- `n` calls of `next_sample`, one after the other: what they return. -/
def sample_results (f64 : F64) (env : ℕ → Memory) : ℕ → Reading → Option (List Bool)
  | 0, _ => some []
  | n + 1, self => do
    let (more, reader) ← PrometheusReader.next_sample f64 (env self.time) self.reader
    let results ← sample_results f64 env n { time := self.time + 1, reader := reader }
    return more :: results

section Reached

variable {f64 : F64} {env : ℕ → Memory} {sources : List Source} {states : List StateSnapshot}
  {r : Reading}

/-- A refill is a call of `next_sample`, or nothing. -/
theorem Reached.exhausted (h : r.Reached f64 env sources states) {stop : Bool} {after : Reading}
    (hstop : Reading.exhausted f64 env r = some (stop, after)) :
    after.Reached f64 env sources states := by
  unfold Reading.exhausted at hstop
  split_ifs at hstop with hused
  · obtain ⟨⟨more, reader⟩, hnext, heq⟩ := Option.map_eq_some_iff.mp hstop
    obtain ⟨-, rfl⟩ := Prod.mk.inj heq
    exact h.sample hnext
  · obtain ⟨-, rfl⟩ := Prod.mk.inj (Option.some.inj hstop)
    exact h

/-- `read` only refills and advances. -/
theorem Reached.read_loop {len fuel : ℕ} {filled bytes : List UInt8} {after : Reading}
    (h : r.Reached f64 env sources states)
    (hread : Reading.read_loop f64 env len fuel filled r = some (bytes, after)) :
    after.Reached f64 env sources states := by
  induction fuel generalizing filled r with
  | zero => simp [Reading.read_loop] at hread
  | succ fuel ih =>
    rw [Reading.read_loop] at hread
    split_ifs at hread with hroom
    · obtain ⟨⟨stop, r₁⟩, hstop, hread⟩ := Option.bind_eq_some_iff.mp hread
      have h₁ := h.exhausted hstop
      dsimp only at hread
      split_ifs at hread with hdone
      · obtain ⟨-, rfl⟩ := Prod.mk.inj (Option.some.inj hread)
        exact h₁
      · obtain ⟨⟨copied, r₂⟩, hadvance, hread⟩ := Option.bind_eq_some_iff.mp hread
        exact ih (h₁.advance hadvance) hread
    · obtain ⟨-, rfl⟩ := Prod.mk.inj (Option.some.inj hread)
      exact h

/-- `poll_read` only refills and advances. -/
theorem Reached.poll_loop {fuel : ℕ} {buf filled : ReadBuf} {after : Reading}
    (h : r.Reached f64 env sources states)
    (hpoll : Reading.poll_loop f64 env fuel buf r = some (filled, after)) :
    after.Reached f64 env sources states := by
  induction fuel generalizing buf r with
  | zero => simp [Reading.poll_loop] at hpoll
  | succ fuel ih =>
    rw [Reading.poll_loop] at hpoll
    split_ifs at hpoll with hroom
    · obtain ⟨⟨stop, r₁⟩, hstop, hpoll⟩ := Option.bind_eq_some_iff.mp hpoll
      have h₁ := h.exhausted hstop
      dsimp only at hpoll
      split_ifs at hpoll with hdone
      · obtain ⟨-, rfl⟩ := Prod.mk.inj (Option.some.inj hpoll)
        exact h₁
      · obtain ⟨⟨copied, r₂⟩, hadvance, hpoll⟩ := Option.bind_eq_some_iff.mp hpoll
        obtain ⟨buf', -, hpoll⟩ := Option.bind_eq_some_iff.mp hpoll
        exact ih (h₁.advance hadvance) hpoll
    · obtain ⟨-, rfl⟩ := Prod.mk.inj (Option.some.inj hpoll)
      exact h

theorem Reached.call (h : r.Reached f64 env sources states) {call : Call} {bytes : List UInt8}
    {after : Reading} (hcall : call.run f64 env r = some (bytes, after)) :
    after.Reached f64 env sources states := by
  cases call with
  | read len => exact h.read_loop hcall
  | poll_read buf =>
    obtain ⟨⟨filled, r'⟩, hpoll, heq⟩ := Option.bind_eq_some_iff.mp hcall
    obtain ⟨-, rfl⟩ := Prod.mk.inj (Option.some.inj heq)
    exact h.poll_loop hpoll

/-! ## Progress -/

/-- The cursor is within its bounds, and every call so far has taken one line off. -/
theorem Reached.lines_left (h : r.Reached f64 env sources states) :
    r.Ready ∧ (r.reader.lines f64).length = total_samples f64 sources states - r.time := by
  induction h with
  -- the number left is a function of the number of calls, since only calls take lines off
  | start =>
    refine ⟨⟨PrometheusReader.valid_start sources states, Nat.zero_le _⟩, ?_⟩
    rw [PrometheusReader.lines_start, length_exposition, Nat.sub_zero]
  | @sample r more after _ hnext ih =>
    obtain ⟨hready, hleft⟩ := ih
    obtain ⟨more', after', hnext', hvalid, hoffset, htakes⟩ :=
      PrometheusReader.next_sample_spec f64 (env r.time) r.reader hready.valid
    rw [hnext, Option.some.injEq, Prod.mk.injEq] at hnext'
    obtain ⟨rfl, rfl⟩ := hnext'
    refine ⟨⟨hvalid, by simp [hoffset]⟩, ?_⟩
    cases hlines : r.reader.lines f64 with
    | nil =>
      rw [hlines] at htakes hleft
      rw [List.length_nil] at hleft
      simp only [htakes.2.2, List.length_nil]
      omega
    | cons line lines =>
      rw [hlines] at htakes hleft
      rw [List.length_cons] at hleft
      simp only [htakes.2.2]
      omega
  | @advance r after n bytes _ hadvance ih =>
    obtain ⟨hready, hleft⟩ := ih
    unfold Reading.advance at hadvance
    split_ifs at hadvance with hfits
    obtain ⟨-, rfl⟩ := Prod.mk.inj (Option.some.inj hadvance)
    exact ⟨⟨⟨hready.valid.family_le, hready.valid.field_le⟩, hfits⟩, hleft⟩

/-- A call finds a line exactly when fewer calls have been made than there are lines. -/
theorem Reached.next (h : r.Reached f64 env sources states) :
    ∃ more after, PrometheusReader.next_sample f64 (env r.time) r.reader = some (more, after)
      ∧ (more = true ↔ r.time < total_samples f64 sources states)
      ∧ (more = true → after.buffer ≠ []) := by
  obtain ⟨hready, hleft⟩ := h.lines_left
  obtain ⟨more, after, hnext, -, -, htakes⟩ :=
    PrometheusReader.next_sample_spec f64 (env r.time) r.reader hready.valid
  refine ⟨more, after, hnext, ?_⟩
  cases hlines : r.reader.lines f64 with
  | nil =>
    rw [hlines] at htakes hleft
    rw [List.length_nil] at hleft
    obtain ⟨rfl, -, -⟩ := htakes
    exact ⟨⟨nofun, fun hlt => absurd hlt (by omega)⟩, nofun⟩
  | cons line lines =>
    rw [hlines] at htakes hleft
    rw [List.length_cons] at hleft
    obtain ⟨rfl, hbuffer, -⟩ := htakes
    exact ⟨⟨fun _ => by omega, fun _ => rfl⟩, fun _ => by
      rw [hbuffer]
      exact encode_ne_nil _⟩

/-- Calls one after the other return `true` for the lines that are left and `false` from then on. -/
theorem Reached.results (h : r.Reached f64 env sources states) (n : ℕ) :
    sample_results f64 env n r
      = some (List.replicate (min n (total_samples f64 sources states - r.time)) true
          ++ List.replicate (n - (total_samples f64 sources states - r.time)) false) := by
  induction n generalizing r with
  | zero => simp [sample_results]
  | succ n ih =>
    obtain ⟨more, after, hnext, hmore, -⟩ := h.next
    have hrest := ih (h.sample hnext)
    simp only at hrest
    simp only [sample_results, hnext, Option.bind_eq_bind, Option.bind_some, hrest]
    by_cases hlt : r.time < total_samples f64 sources states
    · -- a line is left: the call returns `true`, and there is one line less for the others
      obtain ⟨left, hleft⟩ : ∃ left, total_samples f64 sources states - r.time = left + 1 :=
        ⟨total_samples f64 sources states - (r.time + 1), by omega⟩
      rw [hmore.mpr hlt, hleft,
        show total_samples f64 sources states - (r.time + 1) = left by omega,
        Nat.add_min_add_right, Nat.add_sub_add_right, List.replicate_succ, List.cons_append]
      rfl
    · -- no line is left, now and later
      have hnone : total_samples f64 sources states - r.time = 0 := by omega
      have hfalse : more = false := Bool.eq_false_iff.mpr (fun htrue => hlt (hmore.mp htrue))
      rw [hfalse, hnone, show total_samples f64 sources states - (r.time + 1) = 0 by omega,
        Nat.min_zero, Nat.min_zero, Nat.sub_zero, Nat.sub_zero, List.replicate_succ]
      rfl

end Reached

end Reading

/-- The cursor always makes progress. Wherever calls of `next_sample`, `read` and `poll_read` have
brought a reader, a call of `next_sample` ends without an index out of bounds; it returns `true`
exactly while fewer calls have been made than there are lines, and then leaves a line in the
buffer, so that of any further calls as many return `true` as lines are left and the rest `false`;
and a `read` or `poll_read` into a buffer of any size ends, in a position of the same kind. -/
theorem PrometheusReader.always_progresses (f64 : F64) (env : ℕ → Memory) (sources : List Source)
    (states : List StateSnapshot) {r : Reading} (h : r.Reached f64 env sources states) :
    (∃ more after, next_sample f64 (env r.time) r.reader = some (more, after)
      ∧ (more = true ↔ r.time < 11 + (supported_pairs sources).length
          + (finite_fields f64 states).length)
      ∧ (more = true → after.buffer ≠ []))
    ∧ (∀ n, Reading.sample_results f64 env n r
        = some (List.replicate (min n (total_samples f64 sources states - r.time)) true
            ++ List.replicate (n - (total_samples f64 sources states - r.time)) false))
    ∧ ∀ call : Reading.Call, ∃ bytes after, call.run f64 env r = some (bytes, after)
        ∧ after.Reached f64 env sources states := by
  refine ⟨h.next, h.results, fun call => ?_⟩
  obtain ⟨after, hcall, -⟩ := h.lines_left.1.call f64 env call
  exact ⟨_, after, hcall, h.call hcall⟩

/-- The first line of every stream. -/
theorem PrometheusReader.next_sample_start (f64 : F64) (memory : Memory) (sources : List Source)
    (states : List StateSnapshot) :
    next_sample f64 memory (start sources states)
      = some (true, { start sources states with
          header := true, buffer := bytes "# TYPE brz_req_total counter\n" }) := by
  rw [next_sample, next_family_sample]
  rfl

/-- A plan with two outputs and an aggregate. -/
def search_plan : ProfilePlan :=
  let plan := ProfilePlan.new "search" .Service .AccessStatistic "API" "search"
  (plan.with_alias "RPC" "search").with_aggregate "RPC" "total"

/-- The resource whose reads are timed and whose connections for writing are counted. -/
def cache_labels : ResourceLabels := ResourceLabels.new "cache" "10.0.0.1"

/-- A process with slots of several kinds, two of which share a view, and with states: one value is
not finite, and one is no number. -/
def search_calls : List PublicCall := [
  .register_profile search_plan,
  .metric_new_resource (.Redis .Req) (cache_labels.with_access .Read),
  .counter_new (.Api 503) "search",
  .gauge_new .ApiTimeout "search",
  .gauge_new .ApiAll "search",
  .gauge_new_resource (.Redis .Conn) (cache_labels.with_role .Write),
  .record_rpc_state "backend" "latency" "12.5",
  .record_rpc_state "backend" "load" "NaN",
  .record_rpc_state "backend" "mode" "up",
  .record_rpc_state "peer" "nodes" "3"]

/-- That process. -/
def search_process : History := History.sequential ⟨fun _ => 0⟩ ⟨fun _ => 0⟩ search_calls

/-- The slots in the order of their registration. -/
def timing_slot (offset : ℕ) : SourceItem := .Timing ⟨⟨0, SHARD_COUNT_pos⟩, 0, offset⟩
def scalar_slot (offset : ℕ) : ScalarPtr := ⟨⟨0, SHARD_COUNT_pos⟩, 0, offset⟩

/-- What its reader has captured. -/
def search_sources : List Source := [
  ⟨⟨"API", "search", none⟩, .ApiSummary, timing_slot 0⟩,
  ⟨⟨"API", "search", none⟩, .Api 503, .Counter (scalar_slot 0)⟩,
  ⟨⟨"API", "search", none⟩, .Gauge, .Gauge (scalar_slot 1)⟩,
  ⟨⟨"API", "search", none⟩, .Gauge, .Gauge (scalar_slot 2)⟩,
  ⟨⟨"REDIS", "cache", some (cache_labels.with_role .Write)⟩, .ConnGauge, .Gauge (scalar_slot 3)⟩,
  ⟨⟨"REDIS", "cache", some (cache_labels.with_access .Read)⟩, .Full, timing_slot 1⟩,
  ⟨⟨"RPC", "search", none⟩, .Full, timing_slot 0⟩,
  ⟨⟨"RPC", "total", none⟩, .Full, timing_slot 0⟩]

/-- The states it has captured. -/
def search_states : List StateSnapshot := [
  ⟨.Rpc, "backend", [("latency", "12.5"), ("load", "NaN"), ("mode", "up")]⟩,
  ⟨.Rpc, "peer", [("nodes", "3")]⟩]

theorem search_reader : PrometheusReader.from_registry .in_order .stored
    (search_process.registry search_calls.length)
      = some (PrometheusReader.start search_sources search_states) := by rfl

/-- `f64`, as far as these states need it. -/
def search_f64 : F64 where
  Value := Option Decimal
  parse := fun text => if text = "NaN" then some none else (Decimal.parse text).map some
  is_finite := Option.isSome
  display := fun value => value.getD (Decimal.ofInt 0)

theorem total_search_samples : total_samples search_f64 search_sources search_states = 39 := by
  have hkinds : (groups Source.view search_sources).map (fun g => g.1.kind)
      = [.ApiSummary, .Api 503, .Gauge, .ConnGauge, .Full, .Full, .Full] := by
    simp [search_sources, groups_cons, Source.view, cache_labels, ResourceLabels.with_role,
      ResourceLabels.with_access]
  have hpairs : (supported_pairs search_sources).length = 26 := by
    rw [length_supported_pairs, hkinds]
    rfl
  have hfields : (finite_fields search_f64 search_states).length = 2 := by decide
  rw [total_samples, hpairs, hfields]

/-- The reader of this process, after a `read` of five bytes, which ends within the first line, and
one more call of `next_sample`: it emits the 37 lines that are left. -/
theorem PrometheusReader.search_reader_progresses :
    from_registry .in_order .stored (search_process.registry search_calls.length)
      = some (start search_sources search_states)
    ∧ ∃ r₁ r : Reading,
      (Reading.Call.read 5).run search_f64 (fun _ => Memory.zero)
        { time := 0, reader := start search_sources search_states } = some (bytes "# TYP", r₁)
      ∧ next_sample search_f64 Memory.zero r₁.reader = some (true, r.reader) ∧ r.time = 2
      ∧ (∃ after, next_sample search_f64 Memory.zero r.reader = some (true, after)
        ∧ after.buffer ≠ [])
      ∧ Reading.sample_results search_f64 (fun _ => Memory.zero) 40 r
        = some (List.replicate 37 true ++ List.replicate 3 false)
      ∧ ∀ call : Reading.Call, ∃ bytes after,
        call.run search_f64 (fun _ => Memory.zero) r = some (bytes, after) := by
  have hread : (Reading.Call.read 5).run search_f64 (fun _ => Memory.zero)
        { time := 0, reader := start search_sources search_states }
      = some (bytes "# TYP", { time := 1, reader := { start search_sources search_states with
          header := true, buffer := bytes "# TYPE brz_req_total counter\n", offset := 5 } }) := by
    simp only [Reading.Call.run, Reading.read, Reading.read_loop, Reading.exhausted,
      next_sample_start]
    rfl
  have hlt : ∀ n < 39, n < 11 + (supported_pairs search_sources).length
      + (finite_fields search_f64 search_states).length :=
    fun n hn => hn.trans_eq total_search_samples.symm
  obtain ⟨-, -, hcalls⟩ := always_progresses search_f64 (fun _ => Memory.zero) search_sources
    search_states .start
  obtain ⟨_, r₁, hread', h₁⟩ := hcalls (.read 5)
  rw [hread, Option.some.injEq, Prod.mk.injEq] at hread'
  obtain ⟨rfl, rfl⟩ := hread'
  obtain ⟨⟨more, after, hnext, hmore, -⟩, -⟩ := always_progresses _ _ _ _ h₁
  obtain rfl : more = true := hmore.mpr (hlt 1 (by decide))
  obtain ⟨⟨more', after', hnext', hmore', hbuffer⟩, hresults, hcalls⟩ :=
    always_progresses _ _ _ _ (h₁.sample hnext)
  obtain rfl : more' = true := hmore'.mpr (hlt 2 (by decide))
  have hresults := hresults 40
  rw [total_search_samples] at hresults
  exact ⟨search_reader, _, ⟨2, after⟩, hread, hnext, rfl, ⟨after', hnext', hbuffer rfl⟩, hresults,
    fun call => (hcalls call).imp (fun _ h => h.imp (fun _ hcall => hcall.1))⟩

end BrzMetrics
