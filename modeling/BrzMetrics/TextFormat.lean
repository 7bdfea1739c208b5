/-
The Prometheus text format: entries, their encoding, and a parser.

An entry is a `TYPE` line or a sample with labels. Label values may be any
strings: `escape` replaces backslash, quote and newline, so that no value can
end its label or its line. The parser splits at newlines and reads a sample with
a small machine, one byte at a time (`Scan`). Parsing undoes encoding for every
list of entries whose names and label keys keep to their alphabet
(`parse_encode`); label values need no such condition.
-/
import BrzMetrics.Bytes
import BrzMetrics.Decimal

set_option autoImplicit false

namespace BrzMetrics.TextFormat

/-! ## Entries and their encoding -/

/-- One line of an exposition. -/
inductive Entry where
  | type (name mode : String)
  | sample (name : String) (labels : List (String × String)) (value : Decimal)
deriving DecidableEq, Repr

/-- A byte of a label value, with its escape. -/
def escape_byte (b : UInt8) : List UInt8 :=
  if b = 92 then [92, 92]
  else if b = 34 then [92, 34]
  else if b = 10 then [92, 110]
  else [b]

/-- A label value, byte by byte. -/
def escape (bs : List UInt8) : List UInt8 := bs.flatMap escape_byte

@[simp] theorem escape_nil : escape [] = [] := rfl

@[simp] theorem escape_cons (b : UInt8) (bs : List UInt8) :
    escape (b :: bs) = escape_byte b ++ escape bs := List.flatMap_cons

@[simp] theorem escape_append (as bs : List UInt8) :
    escape (as ++ bs) = escape as ++ escape bs := List.flatMap_append

/-- `key="value"`. -/
def encode_label (label : String × String) : List UInt8 :=
  bytes label.1 ++ [61, 34] ++ escape (bytes label.2) ++ [34]

/-- Labels with commas between them. -/
def encode_labels : List (String × String) → List UInt8
  | [] => []
  | [label] => encode_label label
  | label :: next :: labels => encode_label label ++ [44] ++ encode_labels (next :: labels)

/-- A line without its newline. -/
def Entry.encode_line : Entry → List UInt8
  | .type name mode => bytes "# TYPE " ++ bytes name ++ [32] ++ bytes mode
  | .sample name labels value =>
    bytes name ++ [123] ++ encode_labels labels ++ [125, 32] ++ bytes value.text

/-- A line. -/
def Entry.encode (entry : Entry) : List UInt8 := entry.encode_line ++ [10]

/-- Metric names, modes and label keys keep to an alphabet without separators. -/
def Entry.WellFormed : Entry → Prop
  | .type name mode =>
    (∀ b ∈ bytes name, b ≠ 32 ∧ b ≠ 10) ∧ ∀ b ∈ bytes mode, b ≠ 32 ∧ b ≠ 10
  | .sample name labels _ =>
    (∀ b ∈ bytes name, b ≠ 35 ∧ b ≠ 123 ∧ b ≠ 10)
      ∧ labels ≠ [] ∧ ∀ l ∈ labels, ∀ b ∈ bytes l.1, b ≠ 61 ∧ b ≠ 10

instance (entry : Entry) : Decidable entry.WellFormed := by
  cases entry <;> unfold Entry.WellFormed <;> infer_instance

/-! ## The parser -/

/-- Split at newlines: the complete lines, and what follows the last newline. -/
def split_lines : List UInt8 → List (List UInt8) × List UInt8
  | [] => ([], [])
  | b :: bs =>
    match b == 10, split_lines bs with
    | true, (lines, rest) => ([] :: lines, rest)
    | false, ([], rest) => ([], b :: rest)
    | false, (line :: lines, rest) => ((b :: line) :: lines, rest)

/-- The state of the machine that reads a sample. The labels read so far are kept as bytes. -/
inductive Scan where
  | name (read : List UInt8)
  | key (name : List UInt8) (labels : List (List UInt8 × List UInt8)) (read : List UInt8)
  | quote (name : List UInt8) (labels : List (List UInt8 × List UInt8)) (key : List UInt8)
  | value (name : List UInt8) (labels : List (List UInt8 × List UInt8)) (key read : List UInt8)
  | escaped (name : List UInt8) (labels : List (List UInt8 × List UInt8)) (key read : List UInt8)
  | next (name : List UInt8) (labels : List (List UInt8 × List UInt8))
  | blank (name : List UInt8) (labels : List (List UInt8 × List UInt8))
  | number (name : List UInt8) (labels : List (List UInt8 × List UInt8)) (read : List UInt8)
deriving DecidableEq, Repr

/-- Read one byte of a sample. -/
def Scan.step (state : Scan) (b : UInt8) : Option Scan :=
  match state with
  | .name read => if b = 123 then some (.key read [] []) else some (.name (read ++ [b]))
  | .key n ls read => if b = 61 then some (.quote n ls read) else some (.key n ls (read ++ [b]))
  | .quote n ls k => if b = 34 then some (.value n ls k []) else none
  | .value n ls k read =>
    if b = 92 then some (.escaped n ls k read)
    else if b = 34 then some (.next n (ls ++ [(k, read)]))
    else some (.value n ls k (read ++ [b]))
  | .escaped n ls k read =>
    if b = 92 then some (.value n ls k (read ++ [92]))
    else if b = 34 then some (.value n ls k (read ++ [34]))
    else if b = 110 then some (.value n ls k (read ++ [10]))
    else none
  | .next n ls =>
    if b = 44 then some (.key n ls [])
    else if b = 125 then some (.blank n ls)
    else none
  | .blank n ls => if b = 32 then some (.number n ls []) else none
  | .number n ls read => some (.number n ls (read ++ [b]))

/-- Read bytes one after the other. -/
def Scan.run (state : Scan) (bs : List UInt8) : Option Scan := bs.foldlM Scan.step state

/-- The sample that was read, if it is complete. -/
def Scan.finish : Scan → Option Entry
  | .number n ls read => do
    let n ← text_of n
    let ls ← ls.mapM (fun l => do return (← text_of l.1, ← text_of l.2))
    let v ← Decimal.parse (← text_of read)
    return .sample n ls v
  | _ => none

/-- Parse a sample's line. -/
def parse_sample (line : List UInt8) : Option Entry :=
  (Scan.run (.name []) line).bind Scan.finish

/-- Parse what follows `# TYPE `. -/
def parse_type (rest : List UInt8) : Option Entry :=
  match rest.dropWhile (· ≠ 32) with
  | [] => none
  | _ :: mode => do
    if 32 ∈ mode then none
    return .type (← text_of (rest.takeWhile (· ≠ 32))) (← text_of mode)

/-- Parse a line. -/
def parse_line (line : List UInt8) : Option Entry :=
  match (bytes "# TYPE ").isPrefixOf line with
  | true => parse_type (line.drop (bytes "# TYPE ").length)
  | false => parse_sample line

/-- Parse an exposition. The last line has to end in a newline. -/
def parse (bs : List UInt8) : Option (List Entry) :=
  match split_lines bs with
  | (lines, []) => lines.mapM parse_line
  | _ => none

/-! ## Lines -/

theorem split_lines_append {line : List UInt8} (h : 10 ∉ line) (rest : List UInt8) :
    split_lines (line ++ 10 :: rest) = (line :: (split_lines rest).1, (split_lines rest).2) := by
  induction line with
  | nil => rfl
  | cons b line ih =>
    have hb : (b == 10) = false := by
      rw [beq_eq_false_iff_ne]
      exact fun hb => h (hb ▸ List.mem_cons_self)
    rw [List.cons_append, split_lines, ih (fun h' => h (List.mem_cons_of_mem _ h')), hb]

/-- Lines without newlines inside come back one by one. -/
theorem split_lines_flatMap {α : Type} {line : α → List UInt8} {l : List α}
    (h : ∀ a ∈ l, 10 ∉ line a) :
    split_lines (l.flatMap (fun a => line a ++ [10])) = (l.map line, []) := by
  induction l with
  | nil => rfl
  | cons a l ih =>
    rw [List.flatMap_cons, List.append_assoc, List.singleton_append,
      split_lines_append (h a List.mem_cons_self), ih (fun b hb => h b (List.mem_cons_of_mem _ hb)),
      List.map_cons]

/-- An escaped value contains no newline and no unescaped quote: it never holds a newline. -/
theorem newline_notMem_escape (bs : List UInt8) : (10 : UInt8) ∉ escape bs := by
  induction bs with
  | nil => exact List.not_mem_nil
  | cons b bs ih =>
    rw [escape_cons, List.mem_append]
    rintro (h | h)
    · unfold escape_byte at h
      split_ifs at h <;> simp_all
    · exact ih h

/-! ## Samples -/

theorem Scan.run_append (state : Scan) (as bs : List UInt8) :
    state.run (as ++ bs) = (state.run as).bind (fun state => state.run bs) :=
  List.foldlM_append

@[simp] theorem Scan.run_nil (state : Scan) : state.run [] = some state := rfl

theorem Scan.run_cons (state : Scan) (b : UInt8) (bs : List UInt8) :
    state.run (b :: bs) = (state.step b).bind (fun state => state.run bs) := rfl

theorem Scan.run_name {bs : List UInt8} (h : ∀ b ∈ bs, b ≠ 123) (read : List UInt8) :
    Scan.run (.name read) bs = some (.name (read ++ bs)) := by
  induction bs generalizing read with
  | nil => rw [List.append_nil, Scan.run_nil]
  | cons b bs ih =>
    rw [Scan.run_cons, Scan.step, if_neg (h b List.mem_cons_self), Option.bind_some,
      ih (fun c hc => h c (List.mem_cons_of_mem _ hc)), List.append_assoc, List.singleton_append]

section Labels

variable (name : List UInt8) (labels : List (List UInt8 × List UInt8))

theorem Scan.run_key {bs : List UInt8} (h : ∀ b ∈ bs, b ≠ 61) (read : List UInt8) :
    Scan.run (.key name labels read) bs = some (.key name labels (read ++ bs)) := by
  induction bs generalizing read with
  | nil => rw [List.append_nil, Scan.run_nil]
  | cons b bs ih =>
    rw [Scan.run_cons, Scan.step, if_neg (h b List.mem_cons_self), Option.bind_some,
      ih (fun c hc => h c (List.mem_cons_of_mem _ hc)), List.append_assoc, List.singleton_append]

/-- An escaped byte is read back as the byte it stands for, within the value. -/
theorem Scan.run_escape_byte (key read : List UInt8) (b : UInt8) :
    Scan.run (.value name labels key read) (escape_byte b)
      = some (.value name labels key (read ++ [b])) := by
  unfold escape_byte
  split_ifs with h92 h34 h10
  · rw [h92]; rfl
  · rw [h34]; rfl
  · rw [h10]; rfl
  · rw [Scan.run_cons, Scan.step, if_neg h92, if_neg h34]
    rfl

/-- No value, whatever its bytes, gets the machine out of the value. -/
theorem Scan.run_escape (key read bs : List UInt8) :
    Scan.run (.value name labels key read) (escape bs)
      = some (.value name labels key (read ++ bs)) := by
  induction bs generalizing read with
  | nil => rw [escape_nil, List.append_nil, Scan.run_nil]
  | cons b bs ih =>
    rw [escape_cons, Scan.run_append, Scan.run_escape_byte, Option.bind_some, ih,
      List.append_assoc, List.singleton_append]

theorem Scan.run_label {label : String × String} (h : ∀ b ∈ bytes label.1, b ≠ 61) :
    Scan.run (.key name labels []) (encode_label label)
      = some (.next name (labels ++ [(bytes label.1, bytes label.2)])) := by
  rw [encode_label, List.append_assoc, List.append_assoc, Scan.run_append, Scan.run_key _ _ h,
    Option.bind_some, Scan.run_append, List.nil_append]
  have hopen : Scan.run (.key name labels (bytes label.1)) [61, 34]
      = some (.value name labels (bytes label.1) []) := rfl
  rw [hopen, Option.bind_some, Scan.run_append, Scan.run_escape, Option.bind_some, List.nil_append]
  rfl

end Labels

theorem Scan.run_labels (name : List UInt8) : ∀ (ls : List (String × String)),
    ls ≠ [] → (∀ l ∈ ls, ∀ b ∈ bytes l.1, b ≠ 61) →
    ∀ labels : List (List UInt8 × List UInt8),
      Scan.run (.key name labels []) (encode_labels ls)
        = some (.next name (labels ++ ls.map (fun l => (bytes l.1, bytes l.2))))
  | [], hne, _, _ => absurd rfl hne
  | [label], _, h, labels => by
      rw [encode_labels, Scan.run_label _ _ (h label List.mem_cons_self)]
      rfl
  | label :: label' :: ls, _, h, labels => by
      have hcomma : ∀ labels : List (List UInt8 × List UInt8),
          Scan.run (.next name labels) [44] = some (.key name labels []) := fun _ => rfl
      rw [encode_labels, List.append_assoc, Scan.run_append,
        Scan.run_label _ _ (h label List.mem_cons_self), Option.bind_some, Scan.run_append, hcomma,
        Option.bind_some, Scan.run_labels name (label' :: ls) (List.cons_ne_nil _ _)
          (fun l hl => h l (List.mem_cons_of_mem _ hl)), List.append_assoc]
      rfl

theorem Scan.run_number (name : List UInt8) (labels : List (List UInt8 × List UInt8))
    (read bs : List UInt8) :
    Scan.run (.number name labels read) bs = some (.number name labels (read ++ bs)) := by
  induction bs generalizing read with
  | nil => rw [List.append_nil, Scan.run_nil]
  | cons b bs ih =>
    rw [Scan.run_cons, Scan.step, Option.bind_some, ih, List.append_assoc, List.singleton_append]

/-- The labels come back as strings. -/
theorem mapM_text_of (ls : List (String × String)) :
    (ls.map (fun l => (bytes l.1, bytes l.2))).mapM
      (fun l => do return (← text_of l.1, ← text_of l.2)) = some ls := by
  induction ls with
  | nil => rfl
  | cons l ls ih =>
    rw [List.map_cons, List.mapM_cons, ih]
    simp

/-- A sample's line is read back. -/
theorem parse_sample_encode {name : String} {labels : List (String × String)} {value : Decimal}
    (h : (Entry.sample name labels value).WellFormed) :
    parse_sample (Entry.sample name labels value).encode_line = some (.sample name labels value) := by
  obtain ⟨hname, hne, hkeys⟩ := h
  have hopen : Scan.run (.name (bytes name)) [123] = some (.key (bytes name) [] []) := rfl
  have hclose : ∀ ls, Scan.run (.next (bytes name) ls) [125, 32] = some (.number (bytes name) ls []) :=
    fun _ => rfl
  rw [parse_sample, Entry.encode_line, List.append_assoc, List.append_assoc, List.append_assoc,
    Scan.run_append, Scan.run_name (fun b hb => (hname b hb).2.1), Option.bind_some, List.nil_append,
    Scan.run_append, hopen, Option.bind_some, Scan.run_append,
    Scan.run_labels _ _ hne (fun l hl b hb => (hkeys l hl b hb).1), Option.bind_some,
    Scan.run_append, hclose, Option.bind_some, Scan.run_number, Option.bind_some, List.nil_append,
    List.nil_append, Scan.finish, text_of_bytes, mapM_text_of, text_of_bytes]
  simp

/-! ## Whole expositions -/

theorem parse_type_encode {name mode : String} (h : (Entry.type name mode).WellFormed) :
    parse_type (bytes name ++ [32] ++ bytes mode) = some (.type name mode) := by
  obtain ⟨hname, hmode⟩ := h
  have hkeep : ∀ b ∈ bytes name, (decide (b ≠ 32)) = true :=
    fun b hb => decide_eq_true (hname b hb).1
  have hblank : (32 : UInt8) ∉ bytes mode := fun h => (hmode 32 h).1 rfl
  have hdrop : (bytes name ++ [32] ++ bytes mode).dropWhile (· ≠ 32) = 32 :: bytes mode := by
    rw [List.append_assoc, List.dropWhile_append_of_pos hkeep]
    rfl
  have htake : (bytes name ++ [32] ++ bytes mode).takeWhile (· ≠ 32) = bytes name := by
    rw [List.append_assoc, List.takeWhile_append_of_pos hkeep]
    exact List.append_nil _
  rw [parse_type, hdrop, htake]
  simp [hblank]

/-- Every line is read back. -/
theorem parse_line_encode {entry : Entry} (h : entry.WellFormed) :
    parse_line entry.encode_line = some entry := by
  cases entry with
  | type name mode =>
    have hprefix : (bytes "# TYPE ").isPrefixOf (Entry.type name mode).encode_line = true := by
      rw [Entry.encode_line, List.append_assoc, List.append_assoc]
      exact List.isPrefixOf_iff_prefix.mpr (List.prefix_append _ _)
    have hdrop : (Entry.type name mode).encode_line.drop (bytes "# TYPE ").length
        = bytes name ++ [32] ++ bytes mode := by
      rw [Entry.encode_line, List.append_assoc, List.append_assoc, List.drop_left,
        ← List.append_assoc]
    rw [parse_line, hprefix, hdrop]
    exact parse_type_encode h
  | sample name labels value =>
    have hprefix : (bytes "# TYPE ").isPrefixOf (Entry.sample name labels value).encode_line = false := by
      -- the line starts with the name, and no name starts with a hash sign
      have hhash : bytes "# TYPE " = 35 :: [32, 84, 89, 80, 69, 32] := by decide
      rw [hhash, Entry.encode_line, List.append_assoc, List.append_assoc, List.append_assoc]
      cases hb : bytes name with
      | nil => rfl
      | cons b bs =>
        have h35 : (35 == b) = false := by
          rw [beq_eq_false_iff_ne]
          exact fun heq => (h.1 b (hb ▸ List.mem_cons_self)).1 heq.symm
        rw [List.cons_append, List.isPrefixOf, h35, Bool.false_and]
    rw [parse_line, hprefix]
    exact parse_sample_encode h

/-- No byte of a numeral is a newline. -/
theorem newline_notMem_text (value : Decimal) : (10 : UInt8) ∉ bytes value.text := by
  intro h
  rcases Decimal.mem_bytes_text h with h | h | h <;> exact absurd h (by decide)

theorem newline_notMem_encode_label {l : String × String} (hkey : ∀ b ∈ bytes l.1, b ≠ 10) :
    (10 : UInt8) ∉ encode_label l := by
  intro hmem
  simp only [encode_label, List.mem_append] at hmem
  rcases hmem with ((hmem | hmem) | hmem) | hmem
  · exact hkey 10 hmem rfl
  · exact absurd hmem (by decide)
  · -- a newline in the value has been escaped
    exact newline_notMem_escape _ hmem
  · exact absurd hmem (by decide)

theorem newline_notMem_encode_labels {ls : List (String × String)}
    (hkeys : ∀ l ∈ ls, ∀ b ∈ bytes l.1, b ≠ 10) : (10 : UInt8) ∉ encode_labels ls := by
  fun_induction encode_labels ls with
  | case1 => exact List.not_mem_nil
  | case2 l => exact newline_notMem_encode_label (hkeys l List.mem_cons_self)
  | case3 l l' ls ih =>
    intro hmem
    rw [List.append_assoc, List.mem_append, List.mem_append] at hmem
    rcases hmem with hmem | hmem | hmem
    · exact newline_notMem_encode_label (hkeys l List.mem_cons_self) hmem
    · exact absurd hmem (by decide)
    · exact ih (fun k hk => hkeys k (List.mem_cons_of_mem _ hk)) hmem

/-- A line holds no newline of its own. -/
theorem newline_notMem_encode_line {entry : Entry} (h : entry.WellFormed) :
    (10 : UInt8) ∉ entry.encode_line := by
  cases entry with
  | type name mode =>
    obtain ⟨hname, hmode⟩ := h
    intro hmem
    simp only [Entry.encode_line, List.mem_append] at hmem
    rcases hmem with ((hmem | hmem) | hmem) | hmem
    · exact absurd hmem (by decide)
    · exact (hname 10 hmem).2 rfl
    · exact absurd hmem (by decide)
    · exact (hmode 10 hmem).2 rfl
  | sample name labels value =>
    obtain ⟨hname, -, hkeys⟩ := h
    intro hmem
    simp only [Entry.encode_line, List.mem_append] at hmem
    rcases hmem with (((hmem | hmem) | hmem) | hmem) | hmem
    · exact (hname 10 hmem).2.2 rfl
    · exact absurd hmem (by decide)
    · exact newline_notMem_encode_labels (fun l hl b hb => (hkeys l hl b hb).2) hmem
    · exact absurd hmem (by decide)
    · exact newline_notMem_text value hmem

/-- An exposition has one line for each entry. -/
theorem split_lines_encode {entries : List Entry} (h : ∀ e ∈ entries, e.WellFormed) :
    split_lines (entries.flatMap Entry.encode) = (entries.map Entry.encode_line, []) :=
  split_lines_flatMap (fun e he => newline_notMem_encode_line (h e he))

/-- Parsing undoes encoding. -/
theorem parse_encode {entries : List Entry} (h : ∀ e ∈ entries, e.WellFormed) :
    parse (entries.flatMap Entry.encode) = some entries := by
  rw [parse, split_lines_encode h]
  induction entries with
  | nil => rfl
  | cons e entries ih =>
    have ih := ih (fun e he => h e (List.mem_cons_of_mem _ he))
    simp only [List.map_cons, List.mapM_cons, parse_line_encode (h e List.mem_cons_self),
      Option.bind_eq_bind, Option.bind_some] at ih ⊢
    rw [ih]
    rfl

/-- Escaping loses nothing. -/
theorem escape_injective : Function.Injective escape := by
  intro as bs h
  have hrun := Scan.run_escape [] [] [] [] as
  rw [h, Scan.run_escape] at hrun
  simpa using hrun.symm

/-! ## Valid UTF-8 -/

/-- Other bytes stay as they are. -/
theorem escape_eq_self {bs : List UInt8} (h : ∀ b ∈ bs, b ≠ 92 ∧ b ≠ 34 ∧ b ≠ 10) :
    escape bs = bs := by
  induction bs with
  | nil => rfl
  | cons b bs ih =>
    obtain ⟨h92, h34, h10⟩ := h b List.mem_cons_self
    rw [escape_cons, escape_byte, if_neg h92, if_neg h34, if_neg h10,
      ih (fun c hc => h c (List.mem_cons_of_mem _ hc)), List.singleton_append]

/-- Digits need no escaping. -/
@[simp] theorem escape_toString (n : ℕ) : escape (bytes (toString n)) = bytes (toString n) := by
  refine escape_eq_self (fun b hb => ?_)
  rw [← Decimal.ofNat_text] at hb
  rcases Decimal.mem_bytes_text hb with rfl | rfl | hdigit
  · decide
  · decide
  · refine ⟨?_, ?_, ?_⟩ <;> rintro rfl <;> exact absurd hdigit (by decide)

/-- Escaping keeps text valid: a byte that is escaped is a character of its own, and so are the
bytes that replace it. -/
theorem isText_escape (s : String) : IsText (escape (bytes s)) := by
  have hself : ∀ c : Char, IsText (String.utf8EncodeChar c) := fun c =>
    ⟨String.ofList [c], by rw [bytes_ofList, List.flatMap_singleton]⟩
  have hchar : ∀ c : Char, IsText (escape (String.utf8EncodeChar c)) := by
    intro c
    by_cases hc : ∃ b ∈ String.utf8EncodeChar c, b.toNat < 128
    · -- an ASCII character is a single byte
      obtain ⟨b, hb, hlt⟩ := hc
      obtain ⟨-, hsingle, rfl⟩ := (mem_utf8EncodeChar hb).resolve_right (by omega)
      rw [hsingle, escape_cons, escape_nil, List.append_nil, escape_byte]
      split_ifs
      · exact ⟨"\\\\", by decide⟩
      · exact ⟨"\\\"", by decide⟩
      · exact ⟨"\\n", by decide⟩
      · rw [← hsingle]
        exact hself c
    · rw [escape_eq_self]
      · exact hself c
      · -- no byte of any other character is one that is escaped
        refine fun b hb => ⟨?_, ?_, ?_⟩ <;> rintro rfl <;> exact hc ⟨_, hb, by decide⟩
  rw [bytes_eq_flatMap]
  induction s.toList with
  | nil => exact isText_nil
  | cons c cs ih =>
    rw [List.flatMap_cons, escape_append]
    exact (hchar c).append ih

theorem isText_encode_labels (ls : List (String × String)) : IsText (encode_labels ls) := by
  have hlabel : ∀ l : String × String, IsText (encode_label l) := fun l =>
    (((isText_bytes l.1).append ⟨"=\"", by decide⟩).append (isText_escape l.2)).append
      ⟨"\"", by decide⟩
  fun_induction encode_labels ls with
  | case1 => exact isText_nil
  | case2 l => exact hlabel l
  | case3 l l' ls ih => exact ((hlabel l).append ⟨",", by decide⟩).append ih

/-- Every line is text. -/
theorem isText_encode (entry : Entry) : IsText entry.encode := by
  refine IsText.append ?_ ⟨"\n", by decide⟩
  cases entry with
  | type name mode =>
    exact (((isText_bytes _).append (isText_bytes _)).append ⟨" ", by decide⟩).append
      (isText_bytes _)
  | sample name labels value =>
    exact ((((isText_bytes _).append ⟨"\x7b", by decide⟩).append
      (isText_encode_labels labels)).append ⟨"\x7d ", by decide⟩).append (isText_bytes _)

end BrzMetrics.TextFormat
