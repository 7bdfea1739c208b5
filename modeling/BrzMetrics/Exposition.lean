/-
The lines of an exposition, apart from the memory they are read from.

A reader's output is a list of `Line`s that depends on what it captured and not
on the counter values: the `TYPE` lines, one line for each group of sources a
family supports, and one for each RPC state value. `Line.entry` reads a line's
value from memory and gives an entry of the text format, and the code's
open-coded fragments, where every label's closing quote is written by whatever
comes next, are the encoding of that entry (`write_series_eq`, `write_value_eq`).
-/
import BrzMetrics.Prometheus
import BrzMetrics.TextFormat

set_option autoImplicit false

namespace BrzMetrics

open SortBy TextFormat

/-! ## Values -/

/-- What a slot adds to the counter value of its group. -/
def SourceItem.count (memory : Memory) (counter : BrzMetrics.Counter) : SourceItem → UInt64
  | .Timing item => counter.read memory item
  | .Counter item => item.read memory
  | .Gauge _ => 0

/-- What a slot adds to the gauge value of its group. -/
def SourceItem.level (memory : Memory) : SourceItem → Int64
  | .Gauge item => (item.read memory).toInt64
  | _ => 0

/-- The counter value of a group, in the order of its slots. -/
def group_value (memory : Memory) (counter : Counter) (items : List SourceItem) : UInt64 :=
  items.foldl (fun value item => saturating_add_u64 value (item.count memory counter)) 0

/-- The gauge value of a group, in the order of its slots. -/
def group_gauge (memory : Memory) (items : List SourceItem) : Int64 :=
  items.foldl (fun gauge item => saturating_add_i64 gauge (item.level memory)) 0

/-- The counter value of a group is the exact sum, cut off at `u64::MAX`. -/
theorem group_value_toNat (memory : Memory) (counter : Counter) (items : List SourceItem) :
    (group_value memory counter items).toNat
      = min U64_MAX ((items.map (fun item => (item.count memory counter).toNat)).sum) := by
  rw [group_value, foldl_saturating_add_u64 (SourceItem.count memory counter)]
  simp [U64_MAX]

@[simp] theorem saturating_add_u64_zero (a : UInt64) : saturating_add_u64 a 0 = a := by
  refine UInt64.toNat_inj.mp ?_
  have := a.toNat_lt
  rw [saturating_add_u64_toNat, UInt64.toNat_zero]
  omega

@[simp] theorem saturating_add_i64_zero (a : Int64) : saturating_add_i64 a 0 = a := by
  refine Int64.toInt_inj.mp ?_
  have hlo := a.le_toInt
  have hhi := a.toInt_lt
  rw [saturating_add_i64_toInt, Int64.toInt_zero]
  unfold I64_MIN I64_MAX
  omega

/-! ## Families -/

/-- An index into `FAMILIES`. -/
abbrev Family := Fin FAMILIES.length

namespace Family

def name (self : Family) : String := FAMILIES[self].1
def counter (self : Family) : Counter := FAMILIES[self].2.1
def seconds (self : Family) : Bool := FAMILIES[self].2.2

/-- The families from the ninth on are gauges. -/
def is_gauge (self : Family) : Bool := decide (8 ≤ self.val)

/-- What the `TYPE` line says. -/
def mode (self : Family) : String := if self.is_gauge then "gauge" else "counter"

/-- No two families share a name. -/
theorem name_injective : Function.Injective name := by decide

end Family

/-- The value of a sample, before rendering it as text. -/
def sample_value (memory : Memory) (family : Family) (items : List SourceItem) : Decimal :=
  if family.is_gauge then Decimal.ofInt (group_gauge memory items).toInt
  else if family.seconds then
    Decimal.ofHundredths
      (PrometheusReader.hundredths (group_value memory family.counter items)).toNat
  else Decimal.ofNat (group_value memory family.counter items).toNat

/-! ## Labels -/

/-- The labels of a resource beyond its name. -/
def ResourceLabels.labels (self : ResourceLabels) : List (String × String) :=
  [("endpoint", self.endpoint)]
    ++ (self.access.map (fun access => ("access", access.label))).toList
    ++ (self.role.map (fun role => ("role", role.label))).toList

/-- The label only response counts carry. -/
def SourceKind.labels : SourceKind → List (String × String)
  | .Api code => [("status_code", toString code.toNat)]
  | .Timeout => [("status_code", "timeout")]
  | .Full | .ApiSummary | .ConnCounter | .Count | .ConnGauge | .Gauge => []

/-- The labels of a view's samples. -/
def View.labels (self : View) : List (String × String) :=
  [("type", self.output.metric_type), ("name", self.output.name)]
    ++ (self.output.resource.map ResourceLabels.labels).getD []
    ++ self.kind.labels

/-- The labels of an RPC state's samples. -/
def StateSnapshot.labels (self : StateSnapshot) (field : String) : List (String × String) :=
  [("type", self.state_type.metric_type), ("name", self.name), ("field", field)]

/-! ## Lines -/

/-- One line of the exposition: what it is about, and where its value is read. -/
inductive Line where
  | type (name mode : String)
  | group (family : Family) (view : View) (items : List SourceItem)
  | state (snapshot : StateSnapshot) (field : String) (value : Decimal)

/-- The line's entry, with its value read from memory. -/
def Line.entry (memory : Memory) : Line → Entry
  | .type name mode => .type name mode
  | .group family view items => .sample family.name view.labels (sample_value memory family items)
  | .state snapshot field value => .sample "brz_rpc_state" (snapshot.labels field) value

/-- The lines of a family after its `TYPE` line: one for each group it supports. -/
def family_lines (sources : List Source) (family : Family) : List Line :=
  ((groups Source.view sources).filter (fun g => g.1.kind.supports family.val)).map
    (fun g => .group family g.1 (g.2.map Source.item))

/-- The lines of a family. -/
def family_part (sources : List Source) (family : Family) : List Line :=
  .type family.name family.mode :: family_lines sources family

/-- The lines of an RPC state's fields: those whose values are finite numbers. -/
def field_lines (f64 : F64) (snapshot : StateSnapshot) (fields : List (String × String)) :
    List Line :=
  fields.filterMap (fun (field, value) =>
    ((f64.parse value).filter f64.is_finite).map
      (fun value => .state snapshot field (f64.display value)))

/-- The lines of the RPC states after their `TYPE` line. -/
def state_lines (f64 : F64) (states : List StateSnapshot) : List Line :=
  states.flatMap (fun snapshot => field_lines f64 snapshot snapshot.fields)

/-- The `TYPE` line of the RPC states. -/
def state_type : Line := .type "brz_rpc_state" "gauge"

/-- The lines of the families from one on. -/
def parts_from (sources : List Source) (family : ℕ) : List Line :=
  ((List.finRange FAMILIES.length).drop family).flatMap (family_part sources)

/-- All lines of a reader's output. -/
def exposition (f64 : F64) (sources : List Source) (states : List StateSnapshot) : List Line :=
  parts_from sources 0 ++ state_type :: state_lines f64 states

/-- Every line of the states after their `TYPE` line shows a field. -/
theorem mem_state_lines {f64 : F64} {states : List StateSnapshot} {line : Line}
    (h : line ∈ state_lines f64 states) :
    ∃ snapshot field value, line = .state snapshot field value := by
  obtain ⟨snapshot, -, hline⟩ := List.mem_flatMap.mp h
  obtain ⟨⟨field, text⟩, -, hvalue⟩ := List.mem_filterMap.mp hline
  obtain ⟨value, -, rfl⟩ := Option.map_eq_some_iff.mp hvalue
  exact ⟨snapshot, field, f64.display value, rfl⟩

/-! ## The code's fragments -/

/-- `label` appends the escaped value. -/
theorem label_eq (buffer : List UInt8) (value : String) :
    label buffer value = buffer ++ escape (bytes value) := by
  rw [label]
  induction bytes value generalizing buffer with
  | nil => simp
  | cons b bs ih =>
    have hstep : label_byte buffer b = buffer ++ escape_byte b := by
      unfold escape_byte label_byte
      split
      · rw [if_pos rfl]; rfl
      · rw [if_neg (by decide), if_pos rfl]; rfl
      · rw [if_neg (by decide), if_neg (by decide), if_pos rfl]; rfl
      · next h92 h34 h10 => rw [if_neg h92, if_neg h34, if_neg h10]
    rw [List.foldl_cons, hstep, ih, escape_cons, List.append_assoc]

/-- A label whose closing quote is left to what follows. -/
def open_label (label : String × String) : List UInt8 :=
  bytes label.1 ++ [61, 34] ++ escape (bytes label.2)

/-- Labels written so that each closes the one before it. -/
theorem encode_labels_cons (label : String × String) (labels : List (String × String)) :
    encode_labels (label :: labels)
      = open_label label ++ labels.flatMap (fun l => [34, 44] ++ open_label l) ++ [34] := by
  induction labels generalizing label with
  | nil => simp [encode_labels, encode_label, open_label]
  | cons next labels ih =>
    rw [encode_labels, ih, List.flatMap_cons, encode_label, open_label]
    simp only [open_label, List.append_assoc, List.cons_append, List.nil_append]

/-- The part of a sample's line before its value. -/
theorem write_series_eq (buffer : List UInt8) (name : String) (view : View) :
    PrometheusReader.write_series buffer name view.output view.kind
      = buffer ++ (bytes name ++ [123] ++ encode_labels view.labels ++ [125, 32]) := by
  -- each fragment of the source ends one label and begins the next
  have htype : bytes "\x7btype=\"" = 123 :: (bytes "type" ++ [61, 34]) := by decide
  have hname : bytes "\",name=\"" = [34, 44] ++ (bytes "name" ++ [61, 34]) := by decide
  have hendpoint : bytes "\",endpoint=\"" = [34, 44] ++ (bytes "endpoint" ++ [61, 34]) := by decide
  have haccess : bytes "\",access=\"" = [34, 44] ++ (bytes "access" ++ [61, 34]) := by decide
  have hrole : bytes "\",role=\"" = [34, 44] ++ (bytes "role" ++ [61, 34]) := by decide
  have hcode : bytes "\",status_code=\"" = [34, 44] ++ (bytes "status_code" ++ [61, 34]) := by decide
  have htimeout : bytes "\",status_code=\"timeout"
      = [34, 44] ++ (bytes "status_code" ++ [61, 34] ++ escape (bytes "timeout")) := by decide
  have hclose : bytes "\"\x7d " = [34, 125, 32] := by decide
  obtain ⟨⟨metric_type, name', resource⟩, kind⟩ := view
  unfold PrometheusReader.write_series
  rcases resource with - | ⟨rname, endpoint, access, role⟩
  · -- without resource labels only the kind matters
    cases kind <;>
      simp only [label_eq, View.labels, SourceKind.labels,
        encode_labels_cons, open_label, bytes_append, htype, hname, hcode, htimeout, hclose,
        escape_toString, Option.map_none, Option.getD_none, List.flatMap_cons, List.flatMap_nil,
        List.append_assoc, List.cons_append, List.nil_append, List.append_nil]
  · cases access <;> cases role <;> cases kind <;>
      simp only [label_eq, View.labels, SourceKind.labels,
        ResourceLabels.labels, encode_labels_cons, open_label, bytes_append, htype, hname,
        hendpoint, haccess, hrole, hcode, htimeout, hclose, escape_toString, Option.map_none,
        Option.map_some, Option.getD_some, Option.toList_none, Option.toList_some,
        List.flatMap_cons, List.flatMap_nil, List.append_assoc, List.cons_append, List.nil_append,
        List.append_nil]

/-- Two digits of a number below a hundred. -/
theorem pad2_eq {n : ℕ} (h : n < 100) :
    PrometheusReader.pad2 n = String.ofList [Nat.digitChar (n / 10), Nat.digitChar (n % 10)] := by
  unfold PrometheusReader.pad2
  split_ifs with hlt
  · have hzero : "0" = String.ofList [Nat.digitChar 0] := rfl
    rw [Nat.toString_eq_repr, Nat.repr_of_lt hlt, Nat.div_eq_of_lt hlt, Nat.mod_eq_of_lt hlt,
      String.singleton_eq_ofList, hzero, ← String.ofList_append, List.singleton_append]
  · rw [Nat.toString_eq_repr, Nat.repr_of_ge (by omega), Nat.repr_of_lt (by omega),
      String.singleton_eq_ofList, String.singleton_eq_ofList, ← String.ofList_append,
      List.singleton_append]

/-- A number of hundredths, as the code prints it. -/
theorem ofHundredths_text (n : ℕ) :
    (Decimal.ofHundredths n).text = toString (n / 100) ++ "." ++ PrometheusReader.pad2 (n % 100) := by
  have hmod : n % 100 % 10 = n % 10 := by omega
  rw [pad2_eq (by omega), hmod, Decimal.text, Decimal.chars, Nat.toString_eq_ofList_toDigits]
  simp only [Decimal.ofHundredths, Decimal.fracChars, Bool.false_eq_true, if_false,
    List.nil_append, reduceCtorEq, List.map_cons, List.map_nil, String.ofList_append]
  have hpoint : "." = String.ofList ['.'] := rfl
  rw [String.append_assoc, hpoint]
  simp only [← String.ofList_append, List.singleton_append]

/-- The value of a sample and the end of its line. -/
theorem write_value_eq (memory : Memory) (buffer : List UInt8) (family : Family)
    (items : List SourceItem) :
    PrometheusReader.write_value buffer family.val family.seconds
        (group_value memory family.counter items) (group_gauge memory items)
      = buffer ++ (bytes (sample_value memory family items).text ++ [10]) := by
  have hnewline : bytes "\n" = [10] := by decide
  have hgauge : family.is_gauge = true ↔ family.val ≥ 8 := by
    rw [Family.is_gauge, decide_eq_true_iff]
  unfold PrometheusReader.write_value sample_value
  by_cases h : family.val ≥ 8
  · rw [if_pos h, if_pos (hgauge.mpr h), Decimal.ofInt_text, bytes_append, hnewline]
  · rw [if_neg h, if_neg (fun h' => h (hgauge.mp h'))]
    by_cases hs : family.seconds = true
    · simp only [hs, if_true]
      rw [ofHundredths_text, UInt64.toNat_div, UInt64.toNat_mod, bytes_append, hnewline]
      rfl
    · rw [if_neg hs, if_neg hs, Decimal.ofNat_text, bytes_append, hnewline]

/-- The code writes the encoding of a group's entry. -/
theorem write_group_eq (memory : Memory) (buffer : List UInt8) (family : Family) (view : View)
    (items : List SourceItem) :
    PrometheusReader.write_value
        (PrometheusReader.write_series buffer family.name view.output view.kind)
        family.val family.seconds (group_value memory family.counter items)
        (group_gauge memory items)
      = buffer ++ ((Line.group family view items).entry memory).encode := by
  rw [write_value_eq, write_series_eq, Line.entry, Entry.encode, Entry.encode_line]
  simp only [List.append_assoc]

/-- The code writes the encoding of a `TYPE` entry. -/
theorem write_type_eq (buffer : List UInt8) (name mode : String) :
    PrometheusReader.write_type buffer name mode = buffer ++ (Entry.type name mode).encode := by
  have hblank : bytes " " = [32] := by decide
  have hnewline : bytes "\n" = [10] := by decide
  simp only [PrometheusReader.write_type, Entry.encode, Entry.encode_line, bytes_append, hblank,
    hnewline]

/-- The code writes the encoding of a state's entry. -/
theorem write_state_eq (memory : Memory) (buffer : List UInt8) (snapshot : StateSnapshot)
    (field : String) (value : Decimal) :
    label (label (label (buffer ++ bytes "brz_rpc_state\x7btype=\"") snapshot.state_type.metric_type
        ++ bytes "\",name=\"") snapshot.name ++ bytes "\",field=\"") field
      ++ bytes ("\"\x7d " ++ value.text ++ "\n")
      = buffer ++ ((Line.state snapshot field value).entry memory).encode := by
  have htype : bytes "brz_rpc_state\x7btype=\""
      = bytes "brz_rpc_state" ++ 123 :: (bytes "type" ++ [61, 34]) := by decide
  have hname : bytes "\",name=\"" = [34, 44] ++ (bytes "name" ++ [61, 34]) := by decide
  have hfield : bytes "\",field=\"" = [34, 44] ++ (bytes "field" ++ [61, 34]) := by decide
  have hclose : bytes "\"\x7d " = [34, 125, 32] := by decide
  have hnewline : bytes "\n" = [10] := by decide
  simp only [label_eq, Line.entry, StateSnapshot.labels, Entry.encode, Entry.encode_line,
    encode_labels_cons, open_label, bytes_append, htype, hname, hfield, hclose, hnewline,
    List.flatMap_cons, List.flatMap_nil, List.append_assoc, List.cons_append, List.nil_append,
    List.append_nil]

/-! ## Names and keys -/

/-- The lines whose names and modes are the code's own. -/
def Line.Known : Line → Prop
  | .type name mode => (Entry.type name mode).WellFormed
  | _ => True

/-- Every label key is one of the code's own words. -/
theorem View.mem_labels {view : View} {l : String × String} (h : l ∈ view.labels) :
    l.1 ∈ ["type", "name", "endpoint", "access", "role", "status_code"] := by
  obtain ⟨⟨metric_type, name, resource⟩, kind⟩ := view
  rcases resource with - | ⟨rname, endpoint, access, role⟩
  · cases kind <;> simp [View.labels, SourceKind.labels] at h <;> rcases h with rfl | rfl | rfl <;>
      simp
  · cases access <;> cases role <;> cases kind <;>
      simp [View.labels, SourceKind.labels, ResourceLabels.labels] at h <;> grind

/-- Every sample, and every `TYPE` line the code writes, parses. -/
theorem Line.entry_wellFormed {line : Line} (h : line.Known) (memory : Memory) :
    (line.entry memory).WellFormed := by
  cases line with
  | type name mode => exact h
  | group family view items =>
    have hname : ∀ family : Family, ∀ b ∈ bytes family.name, b ≠ 35 ∧ b ≠ 123 ∧ b ≠ 10 := by
      decide +kernel
    have hkeys : ∀ key ∈ ["type", "name", "endpoint", "access", "role", "status_code"],
        ∀ b ∈ bytes key, b ≠ 61 ∧ b ≠ 10 := by
      decide +kernel
    exact ⟨hname family, by simp [View.labels], fun l hl => hkeys _ (View.mem_labels hl)⟩
  | state snapshot field value =>
    refine ⟨by decide +kernel, by simp [StateSnapshot.labels], ?_⟩
    have hkeys : ∀ key ∈ ["type", "name", "field"], ∀ b ∈ bytes key, b ≠ 61 ∧ b ≠ 10 := by
      decide +kernel
    intro l hl
    refine hkeys l.1 ?_
    simp only [StateSnapshot.labels, List.mem_cons, List.not_mem_nil, or_false] at hl
    rcases hl with rfl | rfl | rfl <;> simp

end BrzMetrics
