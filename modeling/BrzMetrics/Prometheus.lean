/-
The Prometheus reader, `src/src/prometheus.rs`: which views of which slots a
reader captures, the order it keeps them in, and `next_sample`, which encodes one
line of the exposition per call.

Two things the code leaves open are parameters. `Layout` gives the addresses of
the slots, which decide the order of the captured sources through
`derive(Ord)` on the pointers. `F64` stands for the standard library's float
parsing and printing, which the RPC state values go through; `Display` of a
finite float is a plain decimal numeral.

Counter values are read while the stream is encoded, so `next_sample` takes the
memory it runs in as an argument. An index out of range is `none`.
-/
import BrzMetrics.Registry
import BrzMetrics.Decimal
import BrzMetrics.Saturating

set_option autoImplicit false

namespace BrzMetrics

open SortBy

/-! ## Families and kinds -/

/-- `FAMILIES`: name, counter, and whether the value is a duration. -/
def FAMILIES : List (String × Counter × Bool) := [
  ("brz_req_total", .Total, false),
  ("brz_err_total", .Failure, false),
  ("brz_slow_total", .Slow, false),
  ("brz_req_duration_secs_total", .Elapsed, true),
  ("brz_err_duration_secs_total", .FailureElapsed, true),
  ("brz_slow_duration_secs_total", .SlowElapsed, true),
  ("brz_conn_total", .Total, false),
  ("brz_count_total", .Total, false),
  ("brz_conn", .Total, false),
  ("brz_value", .Total, false)]

/-- `SourceKind`. -/
inductive SourceKind where
  | Full
  | ApiSummary
  | Api (code : UInt16)
  | Timeout
  | ConnCounter
  | Count
  | ConnGauge
  | Gauge
deriving DecidableEq, Repr

/-- `SourceKind::supports`. -/
def SourceKind.supports (self : SourceKind) (family : ℕ) : Bool :=
  match self with
  | .Full => family < 6
  | .ApiSummary => 1 ≤ family && family < 6
  | .Api _ | .Timeout => family == 0
  | .ConnCounter => family == 6
  | .Count => family == 7
  | .ConnGauge => family == 8
  | .Gauge => family == 9

/-- `SourceItem`. -/
inductive SourceItem where
  | Timing (item : ItemPtr)
  | Counter (item : ScalarPtr)
  | Gauge (item : ScalarPtr)
deriving DecidableEq, Repr

/-- `Source`. -/
structure Source where
  output : ProfileOutput
  kind : SourceKind
  item : SourceItem
deriving DecidableEq, Repr

/-! ## Derived orders

`derive(Ord)` compares fields in order of declaration, variants by position, and
`None` before `Some`. Strings compare by their bytes. -/

def ResourceLabels.rank (self : ResourceLabels) :
    List ℕ ×ₗ List ℕ ×ₗ WithBot ℕ ×ₗ WithBot ℕ :=
  toLex (byte_rank self.name, toLex (byte_rank self.endpoint,
    toLex (self.access.map MetricAccess.ctorIdx, self.role.map ConnectionRole.ctorIdx)))

def ProfileOutput.rank (self : ProfileOutput) :
    List ℕ ×ₗ List ℕ ×ₗ WithBot (List ℕ ×ₗ List ℕ ×ₗ WithBot ℕ ×ₗ WithBot ℕ) :=
  toLex (byte_rank self.metric_type, toLex (byte_rank self.name,
    self.resource.map ResourceLabels.rank))

def SourceKind.rank : SourceKind → ℕ ×ₗ ℕ
  | .Full => toLex (0, 0)
  | .ApiSummary => toLex (1, 0)
  | .Api code => toLex (2, code.toNat)
  | .Timeout => toLex (3, 0)
  | .ConnCounter => toLex (4, 0)
  | .Count => toLex (5, 0)
  | .ConnGauge => toLex (6, 0)
  | .Gauge => toLex (7, 0)

/-- Where the allocator put the slots: distinct slots have distinct addresses. Most of what a reader
exports needs no more than that; which orders of addresses an allocator can produce is said by
`Layout.Boxed`. -/
structure Layout where
  item : ItemPtr → ℕ
  scalar : ScalarPtr → ℕ
  item_injective : Function.Injective item
  scalar_injective : Function.Injective scalar

/-- The bytes of a `Slot`, which is aligned to a cache line, and of a `ScalarSlot`. -/
def SLOT_BYTES : ℕ := 64
def SCALAR_SLOT_BYTES : ℕ := 8

/-- The slots of a chunk are one boxed array: their addresses ascend with their offsets, and the
arrays of two chunks do not overlap. -/
structure Layout.Boxed (layout : Layout) : Prop where
  item_array : ∀ shard chunk, ∀ offset < CHUNK_SIZE, layout.item ⟨shard, chunk, offset⟩
    = layout.item ⟨shard, chunk, 0⟩ + SLOT_BYTES * offset
  scalar_array : ∀ shard chunk, ∀ offset < CHUNK_SIZE, layout.scalar ⟨shard, chunk, offset⟩
    = layout.scalar ⟨shard, chunk, 0⟩ + SCALAR_SLOT_BYTES * offset
  item_apart : ∀ shard chunk shard' chunk', (shard, chunk) ≠ (shard', chunk') →
    layout.item ⟨shard, chunk, 0⟩ + SLOT_BYTES * CHUNK_SIZE ≤ layout.item ⟨shard', chunk', 0⟩
      ∨ layout.item ⟨shard', chunk', 0⟩ + SLOT_BYTES * CHUNK_SIZE ≤ layout.item ⟨shard, chunk, 0⟩
  scalar_apart : ∀ shard chunk shard' chunk', (shard, chunk) ≠ (shard', chunk') →
    layout.scalar ⟨shard, chunk, 0⟩ + SCALAR_SLOT_BYTES * CHUNK_SIZE
        ≤ layout.scalar ⟨shard', chunk', 0⟩
      ∨ layout.scalar ⟨shard', chunk', 0⟩ + SCALAR_SLOT_BYTES * CHUNK_SIZE
        ≤ layout.scalar ⟨shard, chunk, 0⟩

/-- The slots of one chunk lie in the order in which they were allocated. -/
theorem Layout.Boxed.scalar_ascends {layout : Layout} (h : layout.Boxed) (shard : Fin SHARD_COUNT)
    (chunk : ℕ) {i j : ℕ} (hij : i < j) (hj : j < CHUNK_SIZE) :
    layout.scalar ⟨shard, chunk, i⟩ < layout.scalar ⟨shard, chunk, j⟩ := by
  rw [h.scalar_array shard chunk i (hij.trans hj), h.scalar_array shard chunk j hj]
  exact Nat.add_lt_add_left (Nat.mul_lt_mul_of_pos_left hij (by decide)) _

/-- The address of a slot of `size` bytes when the chunks lie one after the other, the first chunks
of all shards first. No slot has an offset beyond its chunk; these are kept out of the way. -/
def Layout.address (size : ℕ) (shard : Fin SHARD_COUNT) (chunk offset : ℕ) : ℕ :=
  if offset < CHUNK_SIZE then
    size * CHUNK_SIZE * (chunk * SHARD_COUNT + shard) + size * offset
  else 2 * Nat.pair shard (Nat.pair chunk offset) + 1

theorem Layout.address_injective {size : ℕ} (hpos : 0 < size) (heven : 2 ∣ size)
    {shard shard' : Fin SHARD_COUNT} {chunk chunk' offset offset' : ℕ}
    (h : address size shard chunk offset = address size shard' chunk' offset') :
    shard = shard' ∧ chunk = chunk' ∧ offset = offset' := by
  obtain ⟨half, rfl⟩ := heven
  unfold address at h
  split_ifs at h with ho ho' ho'
  · -- the place of the slot, counted in slots
    have hplace : CHUNK_SIZE * (chunk * SHARD_COUNT + shard) + offset
        = CHUNK_SIZE * (chunk' * SHARD_COUNT + shard') + offset' := by
      refine Nat.eq_of_mul_eq_mul_left hpos ?_
      rw [Nat.mul_add _ _ offset, Nat.mul_add _ _ offset', ← Nat.mul_assoc, ← Nat.mul_assoc]
      exact h
    have hs := shard.isLt
    have hs' := shard'.isLt
    simp only [CHUNK_SIZE, SHARD_COUNT] at hplace ho ho' hs hs'
    refine ⟨Fin.ext ?_, ?_, ?_⟩ <;> omega
  · -- one address is even, the other odd
    have hodd := congrArg (· % 2) h
    simp only [Nat.mul_assoc, ← Nat.mul_add, Nat.mul_mod_right] at hodd
    omega
  · have hodd := congrArg (· % 2) h
    simp only [Nat.mul_assoc, ← Nat.mul_add, Nat.mul_mod_right] at hodd
    omega
  · obtain ⟨hshard, hrest⟩ := Nat.pair_eq_pair.mp (show Nat.pair shard (Nat.pair chunk offset)
      = Nat.pair shard' (Nat.pair chunk' offset') by omega)
    exact ⟨Fin.ext hshard, Nat.pair_eq_pair.mp hrest⟩

/-- All chunks one after the other. -/
def Layout.in_order : Layout where
  item := fun p => address SLOT_BYTES p.shard p.chunk p.offset
  scalar := fun p => address SCALAR_SLOT_BYTES p.shard p.chunk p.offset
  item_injective := by
    rintro ⟨_, _, _⟩ ⟨_, _, _⟩ h
    obtain ⟨rfl, rfl, rfl⟩ := address_injective (by decide) (by decide) h
    rfl
  scalar_injective := by
    rintro ⟨_, _, _⟩ ⟨_, _, _⟩ h
    obtain ⟨rfl, rfl, rfl⟩ := address_injective (by decide) (by decide) h
    rfl

/-- The arrays of two chunks that lie one after the other do not overlap. -/
theorem Layout.address_apart (size : ℕ) {shard shard' : Fin SHARD_COUNT} {chunk chunk' : ℕ}
    (h : (shard, chunk) ≠ (shard', chunk')) :
    address size shard chunk 0 + size * CHUNK_SIZE ≤ address size shard' chunk' 0
      ∨ address size shard' chunk' 0 + size * CHUNK_SIZE ≤ address size shard chunk 0 := by
  have hne : chunk * SHARD_COUNT + shard ≠ chunk' * SHARD_COUNT + shard' := by
    intro heq
    refine h (Prod.ext (Fin.ext ?_) ?_) <;> simp only [SHARD_COUNT] at heq ⊢ <;> omega
  have hmono : ∀ {n m : ℕ}, n < m →
      size * CHUNK_SIZE * n + size * 0 + size * CHUNK_SIZE ≤ size * CHUNK_SIZE * m + size * 0 := by
    intro n m hnm
    have := Nat.mul_le_mul_left (size * CHUNK_SIZE) hnm
    rw [Nat.mul_succ] at this
    omega
  simp only [address, if_pos CHUNK_SIZE_pos]
  exact hne.lt_or_gt.imp hmono hmono

theorem Layout.in_order_boxed : Layout.in_order.Boxed where
  item_array := fun shard chunk offset ho => by
    simp only [in_order, address, if_pos ho, if_pos CHUNK_SIZE_pos, Nat.mul_zero, Nat.add_zero]
  scalar_array := fun shard chunk offset ho => by
    simp only [in_order, address, if_pos ho, if_pos CHUNK_SIZE_pos, Nat.mul_zero, Nat.add_zero]
  item_apart := fun _ _ _ _ h => address_apart SLOT_BYTES h
  scalar_apart := fun _ _ _ _ h => address_apart SCALAR_SLOT_BYTES h

def SourceItem.rank (layout : Layout) : SourceItem → ℕ ×ₗ ℕ
  | .Timing item => toLex (0, layout.item item)
  | .Counter item => toLex (1, layout.scalar item)
  | .Gauge item => toLex (2, layout.scalar item)

/-- What a sample is about: sources are merged when these agree. -/
structure View where
  output : ProfileOutput
  kind : SourceKind
deriving DecidableEq, Repr

def View.rank (self : View) :
    (List ℕ ×ₗ List ℕ ×ₗ WithBot (List ℕ ×ₗ List ℕ ×ₗ WithBot ℕ ×ₗ WithBot ℕ)) ×ₗ ℕ ×ₗ ℕ :=
  toLex (self.output.rank, self.kind.rank)

def Source.view (self : Source) : View := { output := self.output, kind := self.kind }

theorem toLex_pair_inj {α β : Type*} {a a' : α} {b b' : β} :
    (toLex (a, b) : α ×ₗ β) = toLex (a', b') ↔ a = a' ∧ b = b' := by
  rw [toLex_inj, Prod.mk.injEq]

theorem ResourceLabels.rank_injective : Function.Injective ResourceLabels.rank := by
  intro a b h
  have haccess : Function.Injective MetricAccess.ctorIdx := by
    intro x y hxy; cases x <;> cases y <;> first | rfl | exact absurd hxy (by decide)
  have hrole : Function.Injective ConnectionRole.ctorIdx := by
    intro x y hxy; cases x <;> cases y <;> first | rfl | exact absurd hxy (by decide)
  obtain ⟨hn, h⟩ := toLex_pair_inj.mp h
  obtain ⟨he, h⟩ := toLex_pair_inj.mp h
  obtain ⟨ha, hr⟩ := toLex_pair_inj.mp h
  exact ResourceLabels.ext (byte_rank_injective hn) (byte_rank_injective he)
    (Option.map_injective haccess ha) (Option.map_injective hrole hr)

theorem ProfileOutput.rank_injective : Function.Injective ProfileOutput.rank := by
  intro a b h
  obtain ⟨ht, h⟩ := toLex_pair_inj.mp h
  obtain ⟨hn, hr⟩ := toLex_pair_inj.mp h
  exact ProfileOutput.ext (byte_rank_injective ht) (byte_rank_injective hn)
    (Option.map_injective ResourceLabels.rank_injective hr)

theorem SourceKind.rank_injective : Function.Injective SourceKind.rank := by
  intro a b h
  cases a <;> cases b <;>
    simp_all [rank, UInt16.toNat_inj]

theorem View.rank_injective : Function.Injective View.rank := by
  rintro ⟨o, k⟩ ⟨o', k'⟩ h
  simp only [rank, toLex_pair_inj] at h
  rw [ProfileOutput.rank_injective h.1, SourceKind.rank_injective h.2]

theorem SourceItem.rank_injective (layout : Layout) :
    Function.Injective (SourceItem.rank layout) := by
  intro a b h
  cases a <;> cases b <;> simp only [rank, toLex_pair_inj] at h
  · rw [layout.item_injective h.2]
  · exact absurd h.1 (by decide)
  · exact absurd h.1 (by decide)
  · exact absurd h.1 (by decide)
  · rw [layout.scalar_injective h.2]
  · exact absurd h.1 (by decide)
  · exact absurd h.1 (by decide)
  · exact absurd h.1 (by decide)
  · rw [layout.scalar_injective h.2]

/-- Views in the order of `(output, kind)`. -/
instance : LinearOrder View := LinearOrder.lift' View.rank View.rank_injective

/-- The order of `Source`: by output, then kind, then the slot's address. -/
def Source.rank (layout : Layout) (self : Source) : View ×ₗ ℕ ×ₗ ℕ :=
  toLex (self.view, self.item.rank layout)

theorem Source.rank_injective (layout : Layout) : Function.Injective (Source.rank layout) := by
  rintro ⟨o, k, i⟩ ⟨o', k', i'⟩ h
  simp only [rank, view, toLex_pair_inj, View.mk.injEq] at h
  rw [h.1.1, h.1.2, SourceItem.rank_injective layout h.2]

/-! ## Capturing sources -/

/-- `API` views of a profile only carry the five summary families. -/
def profile_kind (output : ProfileOutput) : SourceKind :=
  if output.metric_type = "API" then .ApiSummary else .Full

/-- What `from_registry` pushes for one timing slot. -/
def Source.of_metric (entry : MetricMeta) : List Source :=
  let add (output : ProfileOutput) (kind : SourceKind) : Source :=
    { output := output, kind := kind, item := .Timing entry.item }
  match entry.profile with
  -- the three profiles of the registry, in the order of the source
  | .Single name kind =>
    let (metric_type, source_kind) : String × SourceKind := match kind with
      | .Api code => ("API", .Api code)
      | .ApiTimeout => ("API", .Timeout)
      | .ApiAll => ("API", .ApiSummary)
      | _ => (kind.output.1, .Full)
    [add { metric_type := metric_type, name := name, resource := none } source_kind]
  | .Resource labels kind =>
    [add
      { metric_type := match kind with
          | .Api _ | .ApiTimeout => "API"
          | _ => kind.output.1,
        name := labels.name, resource := some labels }
      (match kind with
        | .ApiAll => .ApiSummary
        | .Api code => .Api code
        | .ApiTimeout => .Timeout
        | _ => .Full)]
  | .Fanout plan =>
    -- one source for every output, and the aggregate last
    plan.outputs.map (fun output => add output (profile_kind output)) ++
    match plan.aggregate with
    | some output => [add output (profile_kind output)]
    | none => []

/-- What `from_registry` pushes for one scalar slot. -/
def Source.of_scalar (entry : ScalarMeta) : Source :=
  let source_kind : SourceKind := match entry.mode, entry.kind with
    | .Counter, .Api code => .Api code
    | .Counter, .ApiTimeout => .Timeout
    | .Counter, kind => if kind.is_conn then .ConnCounter else .Count
    | .Gauge, kind => if kind.is_conn then .ConnGauge else .Gauge
  let metric_type := match entry.kind with
    | .Api _ | .ApiTimeout => "API"
    | _ => entry.kind.output.1
  { output := { metric_type := metric_type, name := entry.name, resource := entry.resource },
    kind := source_kind,
    item := match entry.mode with
      | .Counter => .Counter entry.item
      | .Gauge => .Gauge entry.item }

/-- The views of every slot, before sorting. -/
def captured (timing : List MetricMeta) (scalars : List ScalarMeta) : List Source :=
  timing.flatMap Source.of_metric ++ scalars.map Source.of_scalar

/-! ## The reader -/

/-- `f64` as the state values use it: `str::parse`, `is_finite` and `Display`. -/
structure F64 where
  Value : Type
  parse : String → Option Value
  is_finite : Value → Bool
  display : Value → Decimal

/-- A float parser that reads nothing. -/
def F64.unread : F64 := ⟨Empty, fun _ => none, nofun, nofun⟩

/-- `PrometheusReader`. -/
structure PrometheusReader where
  sources : List Source
  states : List StateSnapshot
  family : ℕ
  source : ℕ
  header : Bool
  state : ℕ
  state_field : ℕ
  buffer : List UInt8
  offset : ℕ

/-- The body of the loop in `label`. -/
def label_byte (buffer : List UInt8) (byte : UInt8) : List UInt8 :=
  match byte with
  | 92 => buffer ++ bytes "\\\\"
  | 34 => buffer ++ bytes "\\\""
  | 10 => buffer ++ bytes "\\n"
  | byte => buffer ++ [byte]

/-- `label`: append a label value, escaped byte by byte. -/
def label (buffer : List UInt8) (value : String) : List UInt8 :=
  (bytes value).foldl label_byte buffer

namespace PrometheusReader

/-- A reader at the start of its stream. -/
def start (sources : List Source) (states : List StateSnapshot) : PrometheusReader where
  sources := sources
  states := states
  family := 0
  source := 0
  header := false
  state := 0
  state_field := 0
  buffer := []
  offset := 0

/-- `PrometheusReader::from_registry`. -/
def from_registry (layout : Layout) (order : IterOrder) (registry : Registry) :
    Option PrometheusReader := do
  let timing ← registry.for_each_meta
  let scalars ← registry.scalars.for_each
  -- `sources.sort_unstable(); sources.dedup();`
  let sources := dedup (sort_by (Source.rank layout) (captured timing scalars))
  return start sources (registry.state_snapshot order)

/-- `# TYPE {name} {mode}` and a newline. -/
def write_type (buffer : List UInt8) (name mode : String) : List UInt8 :=
  buffer ++ bytes ("# TYPE " ++ name ++ " " ++ mode ++ "\n")

/-- The part of a sample's line before its value. -/
def write_series (buffer : List UInt8) (name : String) (output : ProfileOutput)
    (kind : SourceKind) : List UInt8 :=
  let buffer := buffer ++ bytes (name ++ "\x7btype=\"")
  let buffer := label buffer output.metric_type
  let buffer := buffer ++ bytes "\",name=\""
  let buffer := label buffer output.name
  let buffer := match output.resource with
    | none => buffer
    | some resource =>
      let buffer := buffer ++ bytes "\",endpoint=\""
      let buffer := label buffer resource.endpoint
      let buffer := match resource.access with
        | some access => label (buffer ++ bytes "\",access=\"") access.label
        | none => buffer
      match resource.role with
        | some role => label (buffer ++ bytes "\",role=\"") role.label
        | none => buffer
  let buffer := match kind with
    -- `label` is not used here: a code needs no escaping
    | .Api code => buffer ++ bytes ("\",status_code=\"" ++ toString code.toNat)
    | .Timeout => buffer ++ bytes "\",status_code=\"timeout"
    | _ => buffer
  buffer ++ bytes "\"\x7d "

/-- `value / 10_000 + u64::from(value % 10_000 >= 5_000)`. -/
def hundredths (value : UInt64) : UInt64 :=
  value / 10000 + (if value % 10000 ≥ 5000 then 1 else 0)

/-- `{:02}`. -/
def pad2 (n : ℕ) : String := if n < 10 then "0" ++ toString n else toString n

/-- The value of a sample and the end of its line. -/
def write_value (buffer : List UInt8) (family : ℕ) (seconds : Bool) (value : UInt64)
    (gauge : Int64) : List UInt8 :=
  if family ≥ 8 then
    buffer ++ bytes (toString gauge.toInt ++ "\n")
  else if seconds then
    let hundredths := hundredths value
    buffer ++ bytes (toString (hundredths / 100).toNat ++ "." ++ pad2 (hundredths % 100).toNat
      ++ "\n")
  else
    buffer ++ bytes (toString value.toNat ++ "\n")

/-- The loop over sources whose kind does not support the family. -/
def skip_unsupported (sources : List Source) (family source : ℕ) : ℕ :=
  if h : source < sources.length then
    if sources[source].kind.supports family then source
    else skip_unsupported sources family (source + 1)
  else source
termination_by sources.length - source

/-- The loop that merges the sources of one output and kind into `value` and `gauge`. -/
def merge (memory : Memory) (counter : Counter) (sources : List Source) (output : ProfileOutput)
    (kind : SourceKind) (source : ℕ) (value : UInt64) (gauge : Int64) : ℕ × UInt64 × Int64 :=
  if h : source < sources.length then
    if sources[source].output = output ∧ sources[source].kind = kind then
      match sources[source].item with
      | .Timing item =>
        merge memory counter sources output kind (source + 1)
          (saturating_add_u64 value (counter.read memory item)) gauge
      | .Counter item =>
        merge memory counter sources output kind (source + 1)
          (saturating_add_u64 value (item.read memory)) gauge
      | .Gauge item =>
        merge memory counter sources output kind (source + 1) value
          (saturating_add_i64 gauge (item.read memory).toInt64)
    else (source, value, gauge)
  else (source, value, gauge)
termination_by sources.length - source

/-- The loop over the families: a line was encoded, or all families are done. -/
def next_family_sample (memory : Memory) (self : PrometheusReader) : Bool × PrometheusReader :=
  if h : self.family < FAMILIES.length then
    let (name, counter, seconds) := FAMILIES[self.family]
    if !self.header then
      let mode := if self.family ≥ 8 then "gauge" else "counter"
      (true, { self with header := true, buffer := write_type self.buffer name mode })
    else
      let source := skip_unsupported self.sources self.family self.source
      if hs : source < self.sources.length then
        let output := self.sources[source].output
        let kind := self.sources[source].kind
        let (source, value, gauge) := merge memory counter self.sources output kind source 0 0
        let buffer := write_series self.buffer name output kind
        let buffer := write_value buffer self.family seconds value gauge
        (true, { self with source := source, buffer := buffer })
      else
        next_family_sample memory
          { self with family := self.family + 1, source := 0, header := false }
  else (false, self)
termination_by FAMILIES.length - self.family

/-- The loop over the RPC states: a line was encoded, or all states are done. -/
def next_state_sample (f64 : F64) (self : PrometheusReader) : Option (Bool × PrometheusReader) :=
  if h : self.state < self.states.length then
    let state := self.states[self.state]
    -- the next state starts at its first field
    if self.state_field = state.fields.length then
      next_state_sample f64 { self with state := self.state + 1, state_field := 0 }
    else
      match hf : state.fields[self.state_field]? with
      | none => none
      | some (field, value) =>
        match f64.parse value with
        -- what does not parse as a number is passed over, and so is what is not finite
        | none => next_state_sample f64 { self with state_field := self.state_field + 1 }
        | some value =>
          if !f64.is_finite value then
            next_state_sample f64 { self with state_field := self.state_field + 1 }
          else
            let buffer := self.buffer ++ bytes "brz_rpc_state\x7btype=\""
            let buffer := label buffer state.state_type.metric_type
            let buffer := buffer ++ bytes "\",name=\""
            let buffer := label buffer state.name
            let buffer := buffer ++ bytes "\",field=\""
            let buffer := label buffer field
            let buffer := buffer ++ bytes ("\"\x7d " ++ (f64.display value).text ++ "\n")
            some (true, { self with state_field := self.state_field + 1, buffer := buffer })
  else some (false, self)
termination_by
  (self.states.length - self.state,
    (self.states[self.state]?.map (fun s => s.fields.length)).getD 0 - self.state_field)
decreasing_by
  · -- a state less, or a field less of the same state
    exact Prod.Lex.left _ _ (by omega)
  all_goals
    obtain ⟨hlt, -⟩ := List.getElem?_eq_some_iff.mp hf
    refine Prod.Lex.right _ ?_
    simp only [List.getElem?_eq_getElem h, Option.map_some, Option.getD_some]
    exact Nat.sub_lt_sub_left hlt (Nat.lt_succ_self _)

/-- `PrometheusReader::next_sample`: encode at most one line. -/
def next_sample (f64 : F64) (memory : Memory) (self : PrometheusReader) :
    Option (Bool × PrometheusReader) :=
  match next_family_sample memory { self with buffer := [], offset := 0 } with
  | (true, self) => some (true, self)
  | (false, self) =>
    if !self.header then
      some (true, { self with header := true,
                              buffer := self.buffer ++ bytes "# TYPE brz_rpc_state gauge\n" })
    else next_state_sample f64 self

end PrometheusReader

end BrzMetrics
