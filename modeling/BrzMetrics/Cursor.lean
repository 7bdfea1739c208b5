/-
One call of `next_sample`, against the lines that are left.

`PrometheusReader.lines` is what a reader still has to emit, read off its cursor.
`next_sample_spec` says that a call takes the first of these lines: the buffer
then holds the line's entry, encoded with the values the memory has at that
moment, and the cursor stands before the rest. At the end a call says so and
leaves an empty buffer. No call panics.

The two inner loops get a lemma each. Skipping a source of an unsupported kind
skips a whole group of them in the end (`family_lines_cons`), and merging takes
exactly the run of sources with the view of the first (`merge_eq`). Neither
needs the sources to be sorted.
-/
import BrzMetrics.Exposition

set_option autoImplicit false

namespace BrzMetrics

open SortBy TextFormat

/-! ## The inner loops -/

/-- A source of an unsupported kind adds nothing to a family. -/
theorem family_lines_cons {family : Family} {a : Source} (l : List Source)
    (h : a.kind.supports family.val = false) :
    family_lines (a :: l) family = family_lines l family := by
  have hview : a.view.kind = a.kind := rfl
  have hdrop : family_lines (a :: l) family
      -- its whole group is of the kind, so the group gives no line
      = family_lines (l.dropWhile (fun b => b.view = a.view)) family := by
    rw [family_lines, groups_cons, List.filter_cons, hview, h]
    rfl
  rw [hdrop]
  cases l with
  | nil => rfl
  | cons b l =>
    -- the next source may be in the same group, whose rest is skipped with it
    by_cases hb : b.view = a.view
    · have hkind : b.kind.supports family.val = false := by
        have : b.kind = a.kind := congrArg View.kind hb
        rw [this, h]
      have hbview : b.view.kind = b.kind := rfl
      have hskip : (b :: l).dropWhile (fun b => b.view = a.view)
          = l.dropWhile (fun c => c.view = b.view) := by
        rw [List.dropWhile_cons_of_pos (by simpa using hb), hb]
      rw [hskip, family_lines, family_lines, groups_cons, List.filter_cons, hbview, hkind]
      rfl
    · rw [List.dropWhile_cons_of_neg (by simpa using hb)]

/-- Skipping does not change what is left of a family, and stops at its next group. -/
theorem skip_unsupported_spec (sources : List Source) (family : Family) (source : ℕ) :
    family_lines (sources.drop source) family
        = family_lines (sources.drop
            (PrometheusReader.skip_unsupported sources family.val source)) family
      ∧ ∀ h : PrometheusReader.skip_unsupported sources family.val source < sources.length,
          sources[PrometheusReader.skip_unsupported sources family.val source].kind.supports
            family.val = true := by
  fun_induction PrometheusReader.skip_unsupported sources family.val source with
  | case1 source h hkind => exact ⟨rfl, fun _ => hkind⟩
  | case2 source h hkind ih =>
    refine ⟨?_, ih.2⟩
    rw [List.drop_eq_getElem_cons h, family_lines_cons _ (by simpa using hkind)]
    exact ih.1
  | case3 source h => exact ⟨rfl, fun h' => absurd h' h⟩

/-- A run ends at a source with another view, and at the end of the sources. -/
theorem run_stop {sources : List Source} {output : ProfileOutput} {kind : SourceKind} {source : ℕ}
    (hno : ¬ ∃ h : source < sources.length,
      sources[source].output = output ∧ sources[source].kind = kind) :
    (sources.drop source).takeWhile (fun s => s.view = ⟨output, kind⟩) = [] := by
  cases hd : sources.drop source with
  | nil => rfl
  | cons a l =>
    have hlt : source < sources.length := by
      by_contra hge
      rw [List.drop_eq_nil_of_le (not_lt.mp hge)] at hd
      exact List.cons_ne_nil _ _ hd.symm
    have ha : sources[source] = a := by
      rw [List.drop_eq_getElem_cons hlt] at hd
      exact (List.cons.inj hd).1
    rw [List.takeWhile_cons_of_neg]
    simp only [decide_eq_true_eq, Source.view, View.mk.injEq]
    exact fun h => hno ⟨hlt, ha ▸ h⟩

/-- A source with the run's view belongs to it. -/
theorem run_cons {sources : List Source} {output : ProfileOutput} {kind : SourceKind} {source : ℕ}
    (h : source < sources.length)
    (hview : sources[source].output = output ∧ sources[source].kind = kind) :
    (sources.drop source).takeWhile (fun s => s.view = ⟨output, kind⟩)
      = sources[source] :: (sources.drop (source + 1)).takeWhile
          (fun s => s.view = ⟨output, kind⟩) := by
  rw [List.drop_eq_getElem_cons h, List.takeWhile_cons_of_pos]
  simpa [Source.view] using hview

/-- Merging takes the run of sources with one view, and folds over it. -/
theorem merge_eq (memory : Memory) (counter : Counter) (sources : List Source)
    (output : ProfileOutput) (kind : SourceKind) (source : ℕ) (value : UInt64) (gauge : Int64) :
    PrometheusReader.merge memory counter sources output kind source value gauge
      = let run := (sources.drop source).takeWhile (fun s => s.view = ⟨output, kind⟩)
        (source + run.length,
          (run.map Source.item).foldl
            (fun value item => saturating_add_u64 value (SourceItem.count memory counter item)) value,
          (run.map Source.item).foldl
            (fun gauge item => saturating_add_i64 gauge (SourceItem.level memory item)) gauge) := by
  fun_induction PrometheusReader.merge memory counter sources output kind source value gauge with
  | case1 source value gauge h hview item hitem ih
  | case2 source value gauge h hview item hitem ih
  | case3 source value gauge h hview item hitem ih =>
    -- whichever the slot is, one of the two accumulators moves and the other gets a zero
    rw [ih, run_cons h hview]
    simp only [List.map_cons, List.foldl_cons, hitem, SourceItem.count, SourceItem.level,
      saturating_add_u64_zero, saturating_add_i64_zero, List.length_cons]
    rw [Nat.add_assoc, Nat.add_comm 1]
  | case4 source value gauge h hview =>
    rw [run_stop (fun hin => hin.elim (fun _ h' => hview h'))]
    rfl
  | case5 source value gauge h =>
    rw [run_stop (fun hin => hin.elim (fun h' _ => h h'))]
    rfl

/-- A group in front: the run of its sources gives its line, and the rest the other lines. -/
theorem family_lines_group {family : Family} {a : Source} (l : List Source)
    (h : a.kind.supports family.val = true) :
    family_lines (a :: l) family
      = .group family a.view (((a :: l).takeWhile (fun b => b.view = a.view)).map Source.item)
        :: family_lines ((a :: l).drop ((a :: l).takeWhile (fun b => b.view = a.view)).length)
            family := by
  have hview : a.view.kind = a.kind := rfl
  have htake : (a :: l).takeWhile (fun b => b.view = a.view)
      = a :: l.takeWhile (fun b => b.view = a.view) := List.takeWhile_cons_of_pos (by simp)
  have hdrop : (a :: l).drop ((a :: l).takeWhile (fun b => b.view = a.view)).length
      = l.dropWhile (fun b => b.view = a.view) := by
    have hsplit := List.takeWhile_append_dropWhile (p := fun b => decide (b.view = a.view)) (l := l)
    have hleft := @List.drop_left _ (l.takeWhile (fun b => b.view = a.view))
      (l.dropWhile (fun b => b.view = a.view))
    rw [hsplit] at hleft
    rw [htake, List.length_cons, List.drop_succ_cons, hleft]
  rw [hdrop, htake, family_lines, groups_cons, List.filter_cons, hview, h]
  rfl

/-! ## What is left of a reader -/

namespace PrometheusReader

/-- The lines of the states from the cursor on. -/
def state_part (f64 : F64) (self : PrometheusReader) : List Line :=
  match self.states.drop self.state with
  | [] => []
  | snapshot :: states =>
    field_lines f64 snapshot (snapshot.fields.drop self.state_field) ++ state_lines f64 states

/-- The lines from the cursor on. -/
def lines (f64 : F64) (self : PrometheusReader) : List Line :=
  if h : self.family < FAMILIES.length then
    (if self.header then family_lines (self.sources.drop self.source) ⟨self.family, h⟩
      else family_part (self.sources.drop self.source) ⟨self.family, h⟩)
      ++ parts_from self.sources (self.family + 1) ++ state_type :: self.state_part f64
  else
    (if self.header then [] else [state_type]) ++ self.state_part f64

/-- The cursor is within its bounds. -/
structure Valid (r : PrometheusReader) : Prop where
  family_le : r.family ≤ FAMILIES.length
  field_le : ∀ snapshot, r.states[r.state]? = some snapshot →
    r.state_field ≤ snapshot.fields.length

theorem valid_start (sources : List Source) (states : List StateSnapshot) :
    (start sources states).Valid where
  family_le := Nat.zero_le _
  field_le := fun _ _ => Nat.zero_le _

theorem parts_from_cons (sources : List Source) {family : ℕ} (h : family < FAMILIES.length) :
    parts_from sources family
      = family_part sources ⟨family, h⟩ ++ parts_from sources (family + 1) := by
  have hlen : family < (List.finRange FAMILIES.length).length := by
    rwa [List.length_finRange]
  rw [parts_from, List.drop_eq_getElem_cons hlen, List.flatMap_cons, parts_from]
  simp

theorem parts_from_length (sources : List Source) : parts_from sources FAMILIES.length = [] := by
  rw [parts_from, List.drop_eq_nil_of_le (by rw [List.length_finRange]), List.flatMap_nil]

/-- A new reader has the whole exposition left. -/
theorem lines_start (f64 : F64) (sources : List Source) (states : List StateSnapshot) :
    (start sources states).lines f64 = exposition f64 sources states := by
  have hpos : 0 < FAMILIES.length := by decide
  have hstates : (start sources states).state_part f64 = state_lines f64 states := by
    cases states with
    | nil => rfl
    | cons snapshot states =>
      rw [state_part, state_lines, List.flatMap_cons]
      rfl
  have hdrop : (start sources states).sources.drop (start sources states).source = sources :=
    List.drop_zero
  have hfamily : (start sources states).family = 0 := rfl
  have hheader : (start sources states).header = false := rfl
  have hsources : (start sources states).sources = sources := rfl
  rw [lines, dif_pos (by rw [hfamily]; exact hpos), hstates, hheader, hdrop, exposition,
    parts_from_cons sources hpos, hsources]
  rfl

/-! ## The loop over the families -/

/-- What a step of the stream does: it takes the first line, encoding it, or finds none. -/
structure Takes (f64 : F64) (memory : Memory) (before : PrometheusReader) (more : Bool)
    (after : PrometheusReader) : Prop where
  valid : after.Valid
  emits : more = true → ∃ line, before.lines f64 = line :: after.lines f64
    ∧ after.buffer = before.buffer ++ (line.entry memory).encode
  ends : more = false → before.lines f64 = after.lines f64 ∧ after.buffer = before.buffer
  offset : after.offset = before.offset

/-- Moving the cursor past what emits no line changes nothing. -/
theorem Takes.of_lines {f64 : F64} {memory : Memory} {before middle after : PrometheusReader}
    {more : Bool} (h : Takes f64 memory middle more after)
    (hlines : before.lines f64 = middle.lines f64) (hbuffer : before.buffer = middle.buffer)
    (hoffset : before.offset = middle.offset) : Takes f64 memory before more after where
  valid := h.valid
  emits := by
    rw [hlines, hbuffer]
    exact h.emits
  ends := by
    rw [hlines, hbuffer]
    exact h.ends
  offset := by rw [hoffset, h.offset]

/-- The loop over the families takes a line of theirs, or leaves only the states' lines. -/
theorem next_family_sample_spec (f64 : F64) (memory : Memory) (self : PrometheusReader)
    (h : self.Valid) :
    Takes f64 memory self (next_family_sample memory self).1 (next_family_sample memory self).2
      ∧ ((next_family_sample memory self).1 = false →
          (next_family_sample memory self).2.family = FAMILIES.length) := by
  fun_induction next_family_sample memory self with
  | case1 self hlt name counter seconds hfam hheader mode =>
    -- the family's `TYPE` line
    have hname : name = Family.name ⟨self.family, hlt⟩ := by
      rw [Family.name, Fin.getElem_fin, hfam]
    have hmode : mode = Family.mode ⟨self.family, hlt⟩ := by
      simp [mode, Family.mode, Family.is_gauge]
    have hfalse : self.header = false := by simpa using hheader
    refine ⟨⟨⟨h.family_le, h.field_le⟩, fun _ => ⟨.type name mode, ?_, ?_⟩, Bool.noConfusion, rfl⟩,
      Bool.noConfusion⟩
    · rw [lines, lines, dif_pos hlt, dif_pos hlt, hfalse, hname, hmode]
      rfl
    · exact write_type_eq _ _ _
  | case2 self hlt name counter seconds hfam hheader source hs output kind source' value gauge hm
      buffer buffer' =>
    -- the next group of the family
    have htrue : self.header = true := by simpa using hheader
    have hname : name = Family.name ⟨self.family, hlt⟩ := by
      rw [Family.name, Fin.getElem_fin, hfam]
    have hcounter : counter = Family.counter ⟨self.family, hlt⟩ := by
      rw [Family.counter, Fin.getElem_fin, hfam]
    have hseconds : seconds = Family.seconds ⟨self.family, hlt⟩ := by
      rw [Family.seconds, Fin.getElem_fin, hfam]
    obtain ⟨hskip, hsupports⟩ :=
      skip_unsupported_spec self.sources ⟨self.family, hlt⟩ self.source
    have hdrop : self.sources.drop source = self.sources[source] :: self.sources.drop (source + 1) :=
      List.drop_eq_getElem_cons hs
    rw [merge_eq] at hm
    simp only [Prod.mk.injEq] at hm
    obtain ⟨rfl, rfl, rfl⟩ := hm
    refine ⟨⟨⟨h.family_le, h.field_le⟩, fun _ => ⟨.group ⟨self.family, hlt⟩ ⟨output, kind⟩
      (((self.sources.drop source).takeWhile (fun s => s.view = ⟨output, kind⟩)).map Source.item),
      ?_, ?_⟩, Bool.noConfusion, rfl⟩, Bool.noConfusion⟩
    · have hlines := family_lines_group (self.sources.drop (source + 1)) (hsupports hs)
      rw [← hdrop] at hlines
      rw [lines, lines, dif_pos hlt, dif_pos hlt, htrue, hskip]
      simp only [if_true]
      rw [hlines, List.drop_drop]
      rfl
    · subst hname hcounter hseconds
      exact write_group_eq memory self.buffer ⟨self.family, hlt⟩ ⟨output, kind⟩ _
  | case3 self hlt name counter seconds hfam hheader source hs ih =>
    -- the family has no group left
    have htrue : self.header = true := by simpa using hheader
    obtain ⟨hskip, -⟩ := skip_unsupported_spec self.sources ⟨self.family, hlt⟩ self.source
    have hnone : family_lines (self.sources.drop self.source) ⟨self.family, hlt⟩ = [] := by
      rw [hskip, List.drop_eq_nil_of_le (not_lt.mp hs), family_lines, groups_nil]
      rfl
    obtain ⟨htakes, hend⟩ := ih ⟨hlt, h.field_le⟩
    have hlines : self.lines f64 = ({ self with
        family := self.family + 1, source := 0, header := false } : PrometheusReader).lines f64 := by
      rw [lines, lines, dif_pos hlt, htrue, if_pos rfl, hnone, List.nil_append]
      by_cases hnext : self.family + 1 < FAMILIES.length
      · rw [dif_pos hnext, parts_from_cons _ hnext]
        rfl
      · have hlast : self.family + 1 = FAMILIES.length := by omega
        rw [dif_neg hnext, hlast, parts_from_length]
        rfl
    exact ⟨htakes.of_lines hlines rfl rfl, hend⟩
  | case4 self hge =>
    exact ⟨⟨h, Bool.noConfusion, fun _ => ⟨rfl, rfl⟩, rfl⟩, fun _ => le_antisymm h.family_le (not_lt.mp hge)⟩

/-! ## The loop over the states -/

/-- Past the families and their last header, the states' lines are what is left. -/
theorem lines_states (f64 : F64) (self : PrometheusReader) (hfamily : self.family = FAMILIES.length)
    (hheader : self.header = true) : self.lines f64 = self.state_part f64 := by
  rw [lines, dif_neg (by omega), hheader]
  rfl

/-- The lines of the states from a field of a state on. -/
theorem state_part_of_lt (f64 : F64) (self : PrometheusReader)
    (h : self.state < self.states.length) :
    self.state_part f64
      = field_lines f64 self.states[self.state]
          (self.states[self.state].fields.drop self.state_field)
        ++ state_lines f64 (self.states.drop (self.state + 1)) := by
  rw [state_part, List.drop_eq_getElem_cons h]

/-- The lines from the start of a state on. -/
theorem state_part_of_zero (f64 : F64) {self : PrometheusReader} (h : self.state_field = 0) :
    self.state_part f64 = state_lines f64 (self.states.drop self.state) := by
  rw [state_part, h]
  cases self.states.drop self.state with
  | nil => rfl
  | cons snapshot states => simp only [List.drop_zero, state_lines, List.flatMap_cons]

/-- Moving past a field leaves out the line of that field, if it has one. -/
theorem state_part_next_field (f64 : F64) {self : PrometheusReader}
    (h : self.state < self.states.length) {field value : String}
    (hfield : self.states[self.state].fields[self.state_field]? = some (field, value)) :
    self.state_part f64
      = (((f64.parse value).filter f64.is_finite).map
          (fun value => Line.state self.states[self.state] field (f64.display value))).toList
        ++ ({ self with state_field := self.state_field + 1 } : PrometheusReader).state_part f64 := by
  obtain ⟨hlt, hget⟩ := List.getElem?_eq_some_iff.mp hfield
  rw [state_part_of_lt f64 self h,
    state_part_of_lt f64 { self with state_field := self.state_field + 1 } h, List.drop_eq_getElem_cons hlt, hget, field_lines, field_lines,
    List.filterMap_cons]
  cases hvalue : (f64.parse value).filter f64.is_finite <;> simp [hvalue]

/-- Moving past a field keeps the cursor within its bounds. -/
theorem Valid.next_field {r : PrometheusReader} (h : r.Valid) (hlt : r.state < r.states.length)
    {entry : String × String} (hfield : r.states[r.state].fields[r.state_field]? = some entry) :
    ({ r with state_field := r.state_field + 1 } : PrometheusReader).Valid := by
  refine ⟨h.family_le, fun snapshot hsnapshot => ?_⟩
  have hsame : r.states[r.state] = snapshot := by
    rw [List.getElem?_eq_getElem hlt] at hsnapshot
    exact Option.some.inj hsnapshot
  rw [← hsame]
  exact (List.getElem?_eq_some_iff.mp hfield).1

/-- The loop over the states takes a line of theirs, or finds none. It never reads a field that
is not there. -/
theorem next_state_sample_spec (f64 : F64) (memory : Memory) (self : PrometheusReader)
    (h : self.Valid) (hfamily : self.family = FAMILIES.length) (hheader : self.header = true) :
    ∃ more after, next_state_sample f64 self = some (more, after)
      ∧ Takes f64 memory self more after ∧ (more = false → after.lines f64 = []) := by
  fun_induction next_state_sample f64 self with
  | case1 self hlt state hend ih =>
    -- the state has no field left
    obtain ⟨more, after, hnext, htakes, hdone⟩ :=
      ih ⟨h.family_le, fun _ _ => Nat.zero_le _⟩ hfamily hheader
    refine ⟨more, after, hnext, htakes.of_lines ?_ rfl rfl, hdone⟩
    have hfields : field_lines f64 self.states[self.state]
        (self.states[self.state].fields.drop self.state_field) = [] := by
      rw [List.drop_eq_nil_of_le (by rw [hend])]
      rfl
    rw [lines_states f64 self hfamily hheader, state_part_of_lt f64 self hlt, hfields, List.nil_append,
      lines_states f64 { self with state := self.state + 1, state_field := 0 } hfamily hheader,
      state_part_of_zero f64 rfl]
  | case2 self hlt state hend hnone =>
    -- within its bounds the cursor is before a field
    have hle := h.field_le _ (List.getElem?_eq_getElem hlt)
    have hge := List.getElem?_eq_none_iff.mp hnone
    exact absurd (le_antisymm hle hge) hend
  | case3 self hlt state hend field value hfield hparse ih
  | case4 self hlt state hend field value hfield value' hparse hfinite ih =>
    -- the value is not a finite number
    obtain ⟨more, after, hnext, htakes, hdone⟩ := ih (h.next_field hlt hfield) hfamily hheader
    refine ⟨more, after, hnext, htakes.of_lines ?_ rfl rfl, hdone⟩
    rw [lines_states f64 self hfamily hheader, state_part_next_field f64 hlt hfield,
      lines_states f64 { self with state_field := self.state_field + 1 } hfamily hheader]
    simp_all
  | case5 self hlt state hend field value hfield value' hparse hfinite =>
    have htrue : f64.is_finite value' = true := by simpa using hfinite
    have hafter := fun buffer => lines_states f64
      { self with state_field := self.state_field + 1, buffer := buffer } hfamily hheader
    refine ⟨true, _, rfl, ⟨⟨h.family_le, (h.next_field hlt hfield).field_le⟩, fun _ =>
      ⟨.state state field (f64.display value'), ?_, ?_⟩, nofun, rfl⟩, nofun⟩
    · rw [lines_states f64 self hfamily hheader, state_part_next_field f64 hlt hfield,
        hafter, hparse, Option.filter_some, if_pos htrue]
      rfl
    · exact write_state_eq memory self.buffer state field (f64.display value')
  | case6 self hge =>
    refine ⟨false, self, rfl, ⟨h, nofun, fun _ => ⟨rfl, rfl⟩, rfl⟩, fun _ => ?_⟩
    rw [lines_states f64 self hfamily hheader, state_part, List.drop_eq_nil_of_le (not_lt.mp hge)]

/-! ## One call -/

/-- A call of `next_sample` takes the first line that is left, and encodes its entry into the
buffer; at the end of the stream it leaves the buffer empty. It never panics. -/
theorem next_sample_spec (f64 : F64) (memory : Memory) (self : PrometheusReader) (h : self.Valid) :
    ∃ more after, next_sample f64 memory self = some (more, after) ∧ after.Valid ∧ after.offset = 0
      ∧ match self.lines f64 with
        | [] => more = false ∧ after.buffer = [] ∧ after.lines f64 = []
        | line :: rest => more = true ∧ after.buffer = (line.entry memory).encode
            ∧ after.lines f64 = rest := by
  have hstart : ({ self with buffer := [], offset := 0 } : PrometheusReader).Valid :=
    ⟨h.family_le, h.field_le⟩
  -- what a step takes from the cleared reader it takes from the reader
  have htake : ∀ {more after}, Takes f64 memory { self with buffer := [], offset := 0 } more after →
      (more = false → after.lines f64 = []) →
      after.Valid ∧ after.offset = 0 ∧ match self.lines f64 with
        | [] => more = false ∧ after.buffer = [] ∧ after.lines f64 = []
        | line :: rest => more = true ∧ after.buffer = (line.entry memory).encode
            ∧ after.lines f64 = rest := by
    intro more after htakes hdone
    have hlines : self.lines f64
        = ({ self with buffer := [], offset := 0 } : PrometheusReader).lines f64 := rfl
    refine ⟨htakes.valid, htakes.offset, ?_⟩
    cases more with
    | true =>
      obtain ⟨line, hline, hbuffer⟩ := htakes.emits rfl
      rw [hlines, hline]
      exact ⟨rfl, hbuffer, rfl⟩
    | false =>
      obtain ⟨hnone, hbuffer⟩ := htakes.ends rfl
      rw [hlines, hnone, hdone rfl]
      exact ⟨rfl, hbuffer, rfl⟩
  obtain ⟨htakes, hend⟩ :=
    next_family_sample_spec f64 memory { self with buffer := [], offset := 0 } hstart
  rw [next_sample]
  generalize next_family_sample memory { self with buffer := [], offset := 0 } = result at htakes hend
  obtain ⟨more, middle⟩ := result
  cases more with
  | true => exact ⟨true, middle, rfl, htake htakes nofun⟩
  | false =>
    have hfamily : middle.family = FAMILIES.length := hend rfl
    obtain ⟨hlines, hbuffer⟩ := htakes.ends rfl
    cases hheader : middle.header with
    | false =>
      refine ⟨true, { middle with
          header := true, buffer := middle.buffer ++ bytes "# TYPE brz_rpc_state gauge\n" },
        by simp [hheader], htake ⟨⟨htakes.valid.family_le, htakes.valid.field_le⟩,
          fun _ => ⟨state_type, ?_, ?_⟩, nofun, htakes.offset⟩ nofun⟩
      · have hlast : ¬ middle.family < FAMILIES.length := by omega
        rw [hlines, lines, lines, dif_neg hlast, dif_neg hlast, hheader]
        rfl
      · rw [← hbuffer]
        exact write_type_eq middle.buffer "brz_rpc_state" "gauge"
    | true =>
      obtain ⟨more, after, hnext, hstate, hdone⟩ :=
        next_state_sample_spec f64 memory middle htakes.valid hfamily hheader
      refine ⟨more, after, by simp only [hheader]; exact hnext, htake
        (hstate.of_lines hlines hbuffer.symm htakes.offset.symm) hdone⟩

end PrometheusReader

end BrzMetrics
