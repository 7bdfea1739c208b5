/-
The RPC states of a run.

However the calls of a process overlap, its state store holds for each field the
value of the last record of that field (`History.states_eq`, `get_records`).
Records of different fields commute. A reader keeps the snapshot it was built
with: between its calls of `next_sample` other threads may record and register,
and the lines it encodes stay the same (`scrape_spec`).
-/
import BrzMetrics.Snapshot
import BrzMetrics.Stream
import BrzMetrics.History

set_option autoImplicit false

namespace BrzMetrics

open SortBy TextFormat

/-! ## Records -/

/-- The arguments of a record, as texts. -/
structure StateRecord where
  name : String
  key : String
  value : String
deriving DecidableEq, Repr

/-- One record. -/
def StateRegistry.put (self : StateRegistry) (r : StateRecord) : StateRegistry :=
  self.record .Rpc r.name r.key r.value

/-- The value of the last record of a field. -/
def last_value (records : List StateRecord) (name key : String) : Option String :=
  ((records.filter (fun r => r.name = name ∧ r.key = key)).map StateRecord.value).getLast?

theorem last_value_concat (records : List StateRecord) (r : StateRecord) (name key : String) :
    last_value (records ++ [r]) name key
      = if name = r.name ∧ key = r.key then some r.value else last_value records name key := by
  rw [last_value, List.filter_append]
  by_cases h : name = r.name ∧ key = r.key
  · rw [if_pos h, List.filter_cons_of_pos (by simp [h]), List.filter_nil, List.map_append]
    simp
  · have hfilter : [r].filter (fun r => decide (r.name = name ∧ r.key = key)) = [] :=
      List.filter_cons_of_neg (fun h' =>
        h ⟨(of_decide_eq_true h').1.symm, (of_decide_eq_true h').2.symm⟩)
    rw [if_neg h, hfilter, List.append_nil, last_value]

/-- A field has a last value once it was recorded. -/
theorem exists_last_value {records : List StateRecord} {name key : String} :
    (∃ value, last_value records name key = some value)
      ↔ ∃ r ∈ records, r.name = name ∧ r.key = key := by
  rw [← Option.ne_none_iff_exists', last_value, ne_eq, List.getLast?_eq_none_iff,
    List.map_eq_nil_iff, List.filter_eq_nil_iff]
  simp

namespace StateRegistry

theorem get_put (self : StateRegistry) (r : StateRecord) (identity : StateIdentity) (key : String) :
    (self.put r).get identity key
      = if identity.name = r.name ∧ key = r.key then some r.value else self.get identity key := by
  obtain ⟨⟨⟩, name⟩ := identity
  rw [put, get_record]
  simp

theorem recorded_put (self : StateRegistry) (r : StateRecord) (identity : StateIdentity) :
    (self.put r).recorded identity ↔ identity.name = r.name ∨ self.recorded identity := by
  obtain ⟨⟨⟩, name⟩ := identity
  rw [put, recorded_record]
  simp

/-- After any records a field has the value of its last one. -/
theorem get_records (records : List StateRecord) (identity : StateIdentity) (key : String) :
    (records.foldl put default).get identity key = last_value records identity.name key := by
  induction records using List.reverseRecOn with
  | nil => rw [List.foldl_nil, get_default]; rfl
  | append_singleton records r ih =>
    rw [List.foldl_append, List.foldl_cons, List.foldl_nil, get_put, ih, last_value_concat]

/-- After any records the states are those that were named. -/
theorem recorded_records (records : List StateRecord) (identity : StateIdentity) :
    (records.foldl put default).recorded identity ↔ ∃ r ∈ records, r.name = identity.name := by
  induction records using List.reverseRecOn with
  | nil => exact iff_of_false (not_recorded_default identity) (by simp)
  | append_singleton records r ih =>
    rw [List.foldl_append, List.foldl_cons, List.foldl_nil, recorded_put, ih]
    simp only [List.mem_append, List.mem_singleton, or_and_right, exists_or, exists_eq_left]
    rw [or_comm, eq_comm (a := r.name)]

/-- Records of different fields commute. -/
theorem put_comm (self : StateRegistry) {r r' : StateRecord}
    (h : (r.name, r.key) ≠ (r'.name, r'.key)) (order order' : IterOrder) :
    (∀ identity key, ((self.put r).put r').get identity key = ((self.put r').put r).get identity key)
      ∧ ((self.put r).put r').snapshot order = ((self.put r').put r).snapshot order' := by
  have hget : ∀ identity key,
      ((self.put r).put r').get identity key = ((self.put r').put r).get identity key := by
    intro identity key
    rw [get_put, get_put, get_put, get_put]
    split_ifs with hr' hr
    · -- a field of both records
      exact absurd (Prod.ext (hr.1.symm.trans hr'.1) (hr.2.symm.trans hr'.2)) h
    all_goals rfl
  refine ⟨hget, snapshot_congr hget (fun identity => ?_) order order'⟩
  rw [recorded_put, recorded_put, recorded_put, recorded_put]
  exact or_left_comm

end StateRegistry

/-! ## The records of a history -/

/-- The record a critical section makes. -/
def Access.state_record : Access → Option StateRecord
  | .registration _ => none
  | .record_state name key value => some ⟨name, key, value⟩

/-- The records among the first `n` critical sections. -/
def History.records (history : History) (n : ℕ) : List StateRecord :=
  (history.accesses.take n).filterMap Access.state_record

/-- The states of a registry are what was recorded, whatever is registered in between. -/
theorem History.states_eq (history : History) (n : ℕ) :
    (history.registry n).states = (history.records n).foldl StateRegistry.put .default := by
  induction n with
  | zero => rfl
  | succ n ih =>
    by_cases hn : n < history.accesses.length
    · have hstate := history.state_succ hn
      have hrecords : history.records (n + 1)
          = history.records n ++ (history.accesses[n].state_record).toList := by
        rw [records, records, List.take_succ_eq_append_getElem hn, List.filterMap_append]
        cases h : history.accesses[n].state_record <;> simp [h]
      rw [hrecords, List.foldl_append, ← ih, registry, hstate]
      have hchecked := history.checked _ (List.getElem_mem hn)
      cases haccess : history.accesses[n] with
      | registration op =>
        rw [haccess] at hchecked
        -- a registration leaves the states alone
        obtain ⟨logs, scalars, store, hreached⟩ := history.reached n
        obtain ⟨handle, r', logs', scalars', store', hok, -, -, -, hstates⟩ :=
          hreached.represents.issue hchecked.accepted
        rw [Access.perform, show (history.state n).2 = history.registry n from rfl, hok]
        exact hstates
      | record_state name key value => rfl
    · have hle := Nat.le_of_not_lt hn
      rw [registry, history.state_of_length_le hle, records,
        List.take_of_length_le (Nat.le_succ_of_le hle), ← List.take_of_length_le hle]
      exact ih

/-! ## Reading while others record -/

/-- What happens while a reader is read: critical sections of other threads, and calls of
`next_sample`, each in the memory of its moment. -/
inductive ScrapeStep where
  | enter (access : Access)
  | read (memory : Memory)

/-- The critical section of a step. -/
def ScrapeStep.section? : ScrapeStep → Option Access
  | .enter access => some access
  | .read _ => none

/-- The memory of a call. -/
def ScrapeStep.memory? : ScrapeStep → Option Memory
  | .enter _ => none
  | .read memory => some memory

/-- One step: what it does to the process, to the reader, and to the buffers filled so far. -/
def ScrapeStep.apply (f64 : F64) :
    (List Issued × Registry) × PrometheusReader × List (List UInt8) → ScrapeStep →
      Option ((List Issued × Registry) × PrometheusReader × List (List UInt8))
  | (state, reader, out), .enter access => some (access.perform state, reader, out)
  | (state, reader, out), .read memory => do
    let (more, reader) ← reader.next_sample f64 memory
    return (state, reader, if more then out ++ [reader.buffer] else out)

/-- The lines that some calls encode, each in its own memory. -/
def encoded (memories : List Memory) (lines : List Line) : List (List UInt8) :=
  List.zipWith (fun memory line => (line.entry memory).encode) memories lines

/-- The calls take the reader's lines one by one, whatever else happens. -/
theorem scrape_spec (f64 : F64) (steps : List ScrapeStep) (state : List Issued × Registry)
    (reader : PrometheusReader) (out : List (List UInt8)) (h : reader.Valid) :
    ∃ after, steps.foldlM (ScrapeStep.apply f64) (state, reader, out)
      = some ((steps.filterMap ScrapeStep.section?).foldl Access.perform state, after,
          out ++ encoded (steps.filterMap ScrapeStep.memory?) (reader.lines f64)) := by
  induction steps generalizing state reader out with
  | nil => exact ⟨reader, by simp [encoded]⟩
  | cons step steps ih =>
    cases step with
    | enter access =>
      -- a reader holds no part of the registry's states
      obtain ⟨after, hafter⟩ := ih (access.perform state) reader out h
      refine ⟨after, ?_⟩
      rw [List.foldlM_cons, List.filterMap_cons, List.filterMap_cons]
      exact hafter
    | read memory =>
      obtain ⟨more, next, hnext, hvalid, -, htakes⟩ := reader.next_sample_spec f64 memory h
      obtain ⟨after, hafter⟩ :=
        ih state next (if more then out ++ [next.buffer] else out) hvalid
      refine ⟨after, ?_⟩
      have hstep : ScrapeStep.apply f64 (state, reader, out) (.read memory)
          = some (state, next, if more then out ++ [next.buffer] else out) := by
        rw [ScrapeStep.apply, hnext]
        rfl
      rw [List.foldlM_cons, List.filterMap_cons, List.filterMap_cons, hstep]
      refine hafter.trans ?_
      generalize reader.lines f64 = lines at htakes
      -- one line is taken off, or none is left and the call adds nothing
      cases lines with
      | nil =>
        obtain ⟨rfl, -, hlines⟩ := htakes
        rw [hlines]
        simp [encoded, ScrapeStep.section?]
      | cons line lines =>
        obtain ⟨rfl, hbuffer, hlines⟩ := htakes
        rw [hlines, if_pos rfl, hbuffer]
        simp [encoded, ScrapeStep.section?, ScrapeStep.memory?]

/-! ## The states of a reader -/

/-- The fields of captured states, in order. -/
def captured_fields (states : List StateSnapshot) : List (StateSnapshot × String × String) :=
  states.flatMap (fun s => s.fields.map (fun f => (s, f)))

/-- The line of a field whose value is a finite number. -/
def state_line (f64 : F64) : StateSnapshot × String × String → Option Line
  | (snapshot, field, value) =>
    ((f64.parse value).filter f64.is_finite).map (fun v => .state snapshot field (f64.display v))

/-- The lines of captured states are those of their fields. -/
theorem state_lines_eq (f64 : F64) (states : List StateSnapshot) :
    state_lines f64 states = (captured_fields states).filterMap (state_line f64) := by
  rw [captured_fields, List.filterMap_flatMap, state_lines]
  refine List.flatMap_congr (fun s _ => ?_)
  rw [List.filterMap_map, field_lines]
  rfl

/-- No family is that of the states. -/
theorem families_not_state (sources : List Source) :
    ∀ line ∈ parts_from sources 0, ∀ memory labels value,
      line.entry memory ≠ .sample "brz_rpc_state" labels value := by
  have hname : ∀ family : Family, family.name ≠ "brz_rpc_state" := by decide
  intro line hline memory labels value heq
  rw [parts_from_zero] at hline
  obtain ⟨family, -, hline⟩ := List.mem_flatMap.mp hline
  rcases List.mem_cons.mp hline with rfl | hline
  · exact Entry.noConfusion heq
  · obtain ⟨g, -, rfl⟩ := List.mem_map.mp hline
    exact hname family (Entry.sample.inj heq).1

/-- A captured state is named before another exactly when its name is smaller. -/
theorem StateRegistry.snapshot_names (self : StateRegistry) (order : IterOrder) :
    (self.snapshot order).Pairwise (fun a b => byte_rank a.name < byte_rank b.name) := by
  refine (self.snapshot_pairwise order).imp (fun {a b} hlt => ?_)
  have htype : a.state_type = b.state_type := rfl
  rcases Prod.Lex.lt_iff.mp hlt with hlt | ⟨-, hlt⟩
  · rw [htype] at hlt
    exact absurd hlt (lt_irrefl _)
  · exact hlt

/-- The RPC states are a map in which the last write wins, with a canonical export. After any calls
of any threads, a snapshot lists every recorded name once and in order, and under it every recorded
key once and in order with its last value, whatever the order of the hash maps; records of different
fields commute; and a reader built then emits, in this order, exactly one sample for every field
whose value is a finite number, however its calls interleave with later registrations and records. -/
theorem History.states_last_write (history : History) (n : ℕ) (order : IterOrder) (f64 : F64) :
    let records := history.records n
    let snapshot := (history.registry n).state_snapshot order
    snapshot.Pairwise (fun a b => byte_rank a.name < byte_rank b.name)
    ∧ (∀ name, (∃ s ∈ snapshot, s.name = name) ↔ ∃ r ∈ records, r.name = name)
    ∧ (∀ s ∈ snapshot, s.fields.Pairwise (fun a b => byte_rank a.1 < byte_rank b.1)
      ∧ (∀ key, (∃ value, (key, value) ∈ s.fields) ↔ ∃ r ∈ records, r.name = s.name ∧ r.key = key)
      ∧ ∀ key value, (key, value) ∈ s.fields ↔ last_value records s.name key = some value)
    ∧ (∀ order', (history.registry n).state_snapshot order' = snapshot)
    ∧ (∀ (states : StateRegistry) (r r' : StateRecord), (r.name, r.key) ≠ (r'.name, r'.key) →
      (∀ identity key, ((states.put r).put r').get identity key
          = ((states.put r').put r).get identity key)
      ∧ ∀ order', ((states.put r).put r').snapshot order = ((states.put r').put r).snapshot order')
    ∧ ∀ (layout : Layout) (steps : List ScrapeStep), ∃ reader families after,
      PrometheusReader.from_registry layout order (history.registry n) = some reader
      ∧ (∀ line ∈ families, ∀ memory labels value,
          line.entry memory ≠ .sample "brz_rpc_state" labels value)
      ∧ steps.foldlM (ScrapeStep.apply f64) (history.state n, reader, [])
        = some ((steps.filterMap ScrapeStep.section?).foldl Access.perform (history.state n), after,
            encoded (steps.filterMap ScrapeStep.memory?)
              (families ++ state_type
                :: (captured_fields snapshot).filterMap (state_line f64))) := by
  have hstates := history.states_eq n
  have hget : ∀ identity key, (history.registry n).states.get identity key
      -- what is stored under a field is the last value recorded for it
      = last_value (history.records n) identity.name key := by
    rw [hstates]
    exact StateRegistry.get_records _
  refine ⟨StateRegistry.snapshot_names _ order, fun name => ?_, fun s hs => ?_,
    fun order' => StateRegistry.snapshot_congr (fun _ _ => rfl) (fun _ => Iff.rfl) order' order,
    fun states r r' h => ⟨(states.put_comm h order order).1,
      fun order' => (states.put_comm h order order').2⟩,
    fun layout steps => ?_⟩
  · -- a name is listed when it has been recorded: there is only one type of state
    have hrecorded := StateRegistry.recorded_records (history.records n) ⟨.Rpc, name⟩
    rw [← hstates, ← StateRegistry.exists_mem_snapshot _ order] at hrecorded
    rw [← hrecorded]
    refine exists_congr (fun s => and_congr_right (fun _ => ?_))
    rw [StateIdentity.mk.injEq]
    exact (and_iff_right rfl).symm
  · obtain ⟨hsorted, hmem⟩ := StateRegistry.snapshot_fields _ order s hs
    have hvalue : ∀ key value, (key, value) ∈ s.fields
        ↔ last_value (history.records n) s.name key = some value := by
      intro key value
      rw [hmem, hget]
    refine ⟨hsorted, fun key => ?_, hvalue⟩
    rw [← exists_last_value]
    exact exists_congr (hvalue key)
  · obtain ⟨logs, scalars, store, hreached⟩ := history.reached n
    let sources := kept layout (captured (flat logs) (flat scalars))
    let reader := PrometheusReader.start sources ((history.registry n).state_snapshot order)
    -- the states of the reader are those at its construction, whatever happens then
    obtain ⟨after, hafter⟩ := scrape_spec f64 steps (history.state n) reader []
      (PrometheusReader.valid_start _ _)
    refine ⟨reader, parts_from sources 0, after,
      PrometheusReader.from_registry_eq hreached.represents.inv layout order,
      families_not_state sources, ?_⟩
    rw [hafter, PrometheusReader.lines_start, exposition, state_lines_eq, List.nil_append]

end BrzMetrics
