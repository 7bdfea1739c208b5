/-
What an observer of a slot sees.

An observer loads the six counters of a slot at six points of a recording. If it
loads the count first, then every call whose count it has seen is complete at all
its later loads: the other values contain the call's contributions
(`Recording.observed`). `snapshot` loads in such an order, and so does a reader,
whose first family is the only one that loads counts of timing slots
(`History.count_read_first`).
-/
import BrzMetrics.Progress
import BrzMetrics.Views

set_option autoImplicit false

namespace BrzMetrics

open Interleave SortBy TextFormat

/-- Whether a call counts a success. -/
def HandleCall.successful : HandleCall → Bool
  | .record _ _ success => success
  | .increment _ | .add _ _ | .inc _ => true

namespace Recording

variable {history : History} (self : Recording history)

/-- The calls whose update of the slot's count is among the first `t` operations. -/
def credited (item : ItemPtr) (t : ℕ) : Finset (Fin self.calls.length) :=
  Finset.univ.filter (fun i => ∃ op ∈ progress (self.steps.take t) i, op.target = .slot item .count)

/-- The calls that have begun by the first `t` operations. -/
def begun (t : ℕ) : Finset (Fin self.calls.length) :=
  Finset.univ.filter (fun i => progress (self.steps.take t) i ≠ [])

variable {self} {item : ItemPtr}

theorem memory_toNat (hfits : ∀ field, added self.ops (.slot item field) ≤ U64_MAX) (t : ℕ)
    (field : SlotField) :
    (self.memory t (.slot item field)).toNat
      = ∑ i, added (progress (self.steps.take t) i) (.slot item field) := by
  have hle := (added_take_le self.ops (.slot item field) t).trans (hfits field)
  have hops : (self.upto t).ops = self.ops.take t := List.map_take
  unfold U64_MAX at hle
  rw [self.memory_eq, now_toNat, hops, Nat.mod_eq_of_lt (by omega), ← hops, added_eq]
  rfl

/-- A credited call is complete from then on. -/
theorem complete_of_credited {t u : ℕ} (h : t ≤ u) {i : Fin self.calls.length}
    (hi : i ∈ self.credited item t) : progress (self.steps.take u) i = (self.calls.get i).ops := by
  obtain ⟨op, hop, htarget⟩ := (Finset.mem_filter.mp hi).2
  exact HandleCall.complete_of_count (self.running.take u i)
    ⟨op, (progress_take self.steps i h).mem hop, htarget⟩

/-- A credited call is a call on the slot, and counts once. -/
theorem amount_of_credited {t : ℕ} {i : Fin self.calls.length} (hi : i ∈ self.credited item t) :
    (self.calls.get i).amount (.slot item .count) = 1
      ∧ (self.calls.get i).amount (.slot item .failure_count)
          = if (self.calls.get i).successful then 0 else 1 := by
  obtain ⟨op, hop, htarget⟩ := (Finset.mem_filter.mp hi).2
  have hslot : (self.calls.get i).handle.slot = .timing item :=
    HandleCall.slot_of_target ((self.running.take t i).mem hop) htarget
  generalize self.calls.get i = call at hslot
  cases call with
  | record metric elapsed success =>
    have hitem : metric.item = item := SlotPtr.timing.inj hslot
    rw [HandleCall.amount, HandleCall.amount, if_pos hitem, if_pos hitem]
    exact ⟨rfl, rfl⟩
  | increment metric =>
    have hitem : metric.item = item := SlotPtr.timing.inj hslot
    simp [HandleCall.amount, HandleCall.successful, hitem]
  | add _ _ | inc _ => exact SlotPtr.noConfusion hslot

/-- The count that is loaded is the number of credited calls. -/
theorem observed_count (hfits : ∀ field, added self.ops (.slot item field) ≤ U64_MAX) (t : ℕ) :
    (self.memory t (.slot item .count)).toNat = (self.credited item t).card := by
  have hcall : ∀ i, added (progress (self.steps.take t) i) (.slot item .count)
      = if i ∈ self.credited item t then 1 else 0 := by
    intro i
    split_ifs with hi
    · rw [complete_of_credited le_rfl hi, HandleCall.added_ops, (amount_of_credited hi).1]
    · refine added_eq_zero (fun op hop htarget => hi ?_)
      exact Finset.mem_filter.mpr ⟨Finset.mem_univ i, op, hop, htarget⟩
  rw [memory_toNat hfits, Finset.sum_congr rfl (fun i _ => hcall i), Finset.sum_boole]
  simp

/-- A counter that is loaded no earlier contains the amounts of the calls that the count credits,
and no amount of a call that has not begun. -/
theorem observed (hfits : ∀ field, added self.ops (.slot item field) ≤ U64_MAX) {t u : ℕ}
    (h : t ≤ u) (field : SlotField) :
    ∑ i ∈ self.credited item t, (self.calls.get i).amount (.slot item field)
        ≤ (self.memory u (.slot item field)).toNat
      ∧ (self.memory u (.slot item field)).toNat
          ≤ ∑ i ∈ self.begun u, (self.calls.get i).amount (.slot item field) := by
  rw [memory_toNat hfits]
  constructor
  · -- a call updates the count last, so what it counted is there in full
    calc ∑ i ∈ self.credited item t, (self.calls.get i).amount (.slot item field)
        = ∑ i ∈ self.credited item t, added (progress (self.steps.take u) i) (.slot item field) := by
          refine Finset.sum_congr rfl (fun i hi => ?_)
          rw [complete_of_credited h hi, HandleCall.added_ops]
      _ ≤ ∑ i, added (progress (self.steps.take u) i) (.slot item field) :=
          Finset.sum_le_sum_of_subset (Finset.subset_univ _)
  · -- a call that has not begun has added nothing
    calc ∑ i, added (progress (self.steps.take u) i) (.slot item field)
        = ∑ i ∈ self.begun u, added (progress (self.steps.take u) i) (.slot item field) := by
          refine (Finset.sum_subset (Finset.subset_univ _) (fun i _ hi => ?_)).symm
          have hnil : progress (self.steps.take u) i = [] := by
            by_contra hne
            exact hi (Finset.mem_filter.mpr ⟨Finset.mem_univ i, hne⟩)
          rw [hnil, added_nil]
      _ ≤ ∑ i ∈ self.begun u, (self.calls.get i).amount (.slot item field) :=
          Finset.sum_le_sum (fun i _ => HandleCall.added_le_amount (self.running.take u i) _)

/-- Of the credited calls no more are reported as successful than were. -/
theorem observed_success (hfits : ∀ field, added self.ops (.slot item field) ≤ U64_MAX) {t u : ℕ}
    (h : t ≤ u) :
    (self.memory t (.slot item .count)).toNat - (self.memory u (.slot item .failure_count)).toNat
      ≤ ((self.credited item t).filter (fun i => (self.calls.get i).successful)).card := by
  have hfailed := (observed hfits h .failure_count).1
  rw [Finset.sum_congr rfl (fun i hi => (amount_of_credited hi).2)] at hfailed
  have hcard := Finset.card_filter_add_card_filter_not (s := self.credited item t)
    (fun i : Fin self.calls.length => (self.calls.get i).successful = true)
  rw [Finset.sum_ite, Finset.sum_const_zero, Finset.sum_const, zero_add, smul_eq_mul,
    mul_one] at hfailed
  rw [observed_count hfits]
  omega

end Recording

/-! ## The two observers of the code -/

/-- The position of a counter's load in `snapshot`. -/
def SlotField.position : SlotField → ℕ
  | .count => 0
  | .elapsed_us => 1
  | .slow_count => 2
  | .slow_elapsed_us => 3
  | .failure_count => 4
  | .failure_elapsed_us => 5

/-- The family of a line. -/
def Line.family : Line → Option Family
  | .group family _ _ => some family
  | .type _ _ | .state _ _ _ => none

/-- The families of an exposition follow each other. -/
theorem exposition_families (f64 : F64) (sources : List Source) (states : List StateSnapshot) :
    (exposition f64 sources states).Pairwise (fun a b =>
      ∀ family ∈ a.family, ∀ family' ∈ b.family, family ≤ family') := by
  have hstate : ∀ line ∈ state_type :: state_lines f64 states, line.family = none := by
    intro line hline
    rcases List.mem_cons.mp hline with rfl | hline
    · rfl
    · obtain ⟨snapshot, field, value, rfl⟩ := mem_state_lines hline
      rfl
  -- a part has lines of its own family, and its `TYPE` line
  have hpart : ∀ family : Family, ∀ line ∈ Line.type family.name family.mode
      :: (family_groups sources family).map (fun g => Line.group family g.1 g.2),
      ∀ family' ∈ line.family, family' = family := by
    intro family line hline family' hfamily'
    rcases List.mem_cons.mp hline with rfl | hline
    · exact absurd hfamily' (by simp [Line.family])
    · obtain ⟨g, -, rfl⟩ := List.mem_map.mp hline
      exact (Option.mem_some_iff.mp hfamily').symm
  rw [exposition, parts_from_zero, List.pairwise_append, List.pairwise_flatMap]
  refine ⟨⟨fun family _ => ?_, ?_⟩, ?_, ?_⟩
  · refine List.pairwise_of_forall_mem_list (fun a ha b hb f hf f' hf' => ?_)
    rw [hpart family a ha f hf, hpart family b hb f' hf']
  · refine (List.pairwise_lt_finRange _).imp (fun {family family'} hlt a ha b hb f hf f' hf' => ?_)
    rw [hpart family a ha f hf, hpart family' b hb f' hf']
    exact le_of_lt hlt
  · refine List.pairwise_of_forall_mem_list (fun a ha b _ f hf => ?_)
    rw [hstate a ha] at hf
    exact absurd hf (by simp)
  · intro a _ b hb f _ f' hf'
    rw [hstate b hb] at hf'
    exact absurd hf' (by simp)

/-- A reader loads the count of a slot before its other counters. -/
theorem History.count_read_first (history : History) (n : ℕ) (layout : Layout) (order : IterOrder)
    (f64 : F64) (item : ItemPtr) :
    ∃ reader, ∃ lines : List Line,
      PrometheusReader.from_registry layout order (history.registry n) = some reader
      ∧ (∀ env, Streams f64 env 0 reader ((entries env 0 lines).map Entry.encode))
      ∧ ∀ (i j : ℕ) (family family' : Family) (view view' : View) (items items' : List SourceItem),
          lines[i]? = some (.group family view items) → SourceItem.Timing item ∈ items →
          family.counter = .Total →
          lines[j]? = some (.group family' view' items') → SourceItem.Timing item ∈ items' →
          family'.counter ≠ .Total → i < j := by
  obtain ⟨logs, scalars, store, hreached⟩ := history.reached n
  have hinv := hreached.represents.inv
  refine ⟨_, _, PrometheusReader.from_registry_eq hinv layout order,
    fun env => streams_start layout _ _, ?_⟩
  -- a timing slot is only in the first six families
  have hfamily : ∀ (family : Family) (view : View) (items : List SourceItem),
      Line.group family view items ∈ exposition f64
        (kept layout (captured (flat logs) (flat scalars)))
        ((history.registry n).state_snapshot order) →
      SourceItem.Timing item ∈ items → family.val < 6 := by
    intro family view items hline hitem
    have hg := mem_exposition_group.mp hline
    rw [← List.mem_toFinset, (group_items layout _ family _ hg).2,
      mem_view_slots_captured] at hitem
    have hkind := ((mem_family_groups layout _ family view).mp (List.mem_map_of_mem hg)).2
    rcases hitem with ⟨m, -, hview, -⟩ | ⟨m, -, -, heq⟩
    · exact m.timing_family hview hkind
    · exact absurd heq.symm (source_item_ne_timing m item)
  intro i j family family' view view' items items' hi hitem htotal hj hitem' hother
  have hcounter : ∀ family family' : Family, family.val < 6 → family.counter = .Total →
      family'.counter ≠ .Total → family < family' := by decide
  have hlt := hcounter family family'
    (hfamily family view items (List.mem_of_getElem? hi) hitem) htotal hother
  obtain ⟨hilt, hi⟩ := List.getElem?_eq_some_iff.mp hi
  obtain ⟨hjlt, hj⟩ := List.getElem?_eq_some_iff.mp hj
  by_contra hle
  rcases Nat.lt_or_eq_of_le (Nat.le_of_not_lt hle) with hlt' | rfl
  · have hsorted := List.pairwise_iff_getElem.mp
      (exposition_families f64 (kept layout (captured (flat logs) (flat scalars)))
        ((history.registry n).state_snapshot order)) j i hjlt hilt hlt'
    rw [hi, hj] at hsorted
    exact absurd hlt (not_lt_of_ge (hsorted family' rfl family rfl))
  · rw [hi] at hj
    rw [(Line.group.inj hj).1] at hlt
    exact lt_irrefl _ hlt

/-- An observer that loads the count first never credits a call without its details. While no
counter wraps, the total it sees is the number of calls that had updated the count by then; every
other counter, loaded later, is at least what these calls add to it and at most what the calls
begun by then add; so no more successes are reported than there were among them. `snapshot` loads
in such an order, and so does a reader of any registry of the history: the lines with a slot's
count come before the lines with its other counters. -/
theorem History.observers_credit_details (history : History) (r : Recording history)
    (item : ItemPtr) (hfits : ∀ field, added r.ops (.slot item field) ≤ U64_MAX) :
    (∀ load : SlotField → ℕ, (∀ field, load .count ≤ load field) →
      let observed := fun field => (r.memory (load field) (.slot item field)).toNat
      let credited := r.credited item (load .count)
      observed .count = credited.card
      ∧ (∀ field, ∑ i ∈ credited, (r.calls.get i).amount (.slot item field) ≤ observed field
          ∧ observed field ≤ ∑ i ∈ r.begun (load field), (r.calls.get i).amount (.slot item field))
      ∧ observed .count - observed .failure_count
          ≤ (credited.filter (fun i => (r.calls.get i).successful)).card)
    ∧ (∀ time : ℕ → ℕ, Monotone time →
      let load := fun field : SlotField => time field.position
      let seen := snapshot (fun i => r.memory (time i)) item
      (∀ field, load .count ≤ load field)
      ∧ seen.total = r.memory (load .count) (.slot item .count)
      ∧ seen.elapsed_us = r.memory (load .elapsed_us) (.slot item .elapsed_us)
      ∧ seen.slow = r.memory (load .slow_count) (.slot item .slow_count)
      ∧ seen.slow_elapsed_us = r.memory (load .slow_elapsed_us) (.slot item .slow_elapsed_us)
      ∧ seen.failure = r.memory (load .failure_count) (.slot item .failure_count)
      ∧ seen.failure_elapsed_us
          = r.memory (load .failure_elapsed_us) (.slot item .failure_elapsed_us)
      ∧ seen.success.toNat
          ≤ ((r.credited item (load .count)).filter (fun i => (r.calls.get i).successful)).card)
    ∧ ∀ (n : ℕ) (layout : Layout) (order : IterOrder) (f64 : F64), ∃ reader, ∃ lines : List Line,
      PrometheusReader.from_registry layout order (history.registry n) = some reader
      ∧ (∀ env, Streams f64 env 0 reader ((entries env 0 lines).map Entry.encode))
      ∧ ∀ (i j : ℕ) (family family' : Family) (view view' : View) (items items' : List SourceItem),
          lines[i]? = some (.group family view items) → SourceItem.Timing item ∈ items →
          family.counter = .Total →
          lines[j]? = some (.group family' view' items') → SourceItem.Timing item ∈ items' →
          family'.counter ≠ .Total → i < j := by
  refine ⟨fun load hload => ?_, fun time htime => ?_, fun n layout order f64 =>
    history.count_read_first n layout order f64 item⟩
  · exact ⟨Recording.observed_count hfits _, fun field => Recording.observed hfits (hload field) field,
      Recording.observed_success hfits (hload .failure_count)⟩
  · -- `snapshot` loads the count before anything else
    have hfirst : ∀ field : SlotField, time SlotField.count.position ≤ time field.position :=
      fun field => htime (Nat.zero_le _)
    refine ⟨hfirst, rfl, rfl, rfl, rfl, rfl, rfl, ?_⟩
    exact (saturating_sub_u64_toNat _ _).le.trans
      (Recording.observed_success hfits (hfirst .failure_count))

/-- A failure of 70 ms, a dropped message, and a failure of 80 ms. -/
def queue_overlap_calls : List HandleCall :=
  [.record queue ⟨0, 70000000, by decide⟩ false, .increment queue,
    .record queue ⟨0, 80000000, by decide⟩ false]

theorem queue_overlap_returned :
    ∀ call ∈ queue_overlap_calls, ∃ op, logging.Returned op call.handle := by
  intro call hcall
  refine ⟨.register "queue" .Log, ?_⟩
  have hhandle : ∀ call ∈ queue_overlap_calls, call.handle = .metric queue := by decide
  rw [hhandle call hcall]
  exact queue_returned

/-- The operations of the two failures, of which the second has only begun. -/
def queue_overlap_steps : List (Fin queue_overlap_calls.length × FetchAdd) :=
  let first := queue.record ⟨0, 70000000, by decide⟩ false
  let second := queue.record ⟨0, 80000000, by decide⟩ false
  (first.take 3).map (Prod.mk ⟨0, by decide⟩) ++ (second.take 2).map (Prod.mk ⟨2, by decide⟩)
    ++ (first.drop 3).map (Prod.mk ⟨0, by decide⟩) ++ queue.increment.map (Prod.mk ⟨1, by decide⟩)
    ++ ((second.drop 2).take 2).map (Prod.mk ⟨2, by decide⟩)

/-- The two failures overlap. -/
def queue_overlap : Recording logging where
  calls := queue_overlap_calls
  steps := queue_overlap_steps
  returned := queue_overlap_returned
  running := by
    show Concurrent (fun i => queue_overlap_calls[i].ops) queue_overlap_steps
    decide

/-- An observer whose loads begin when the first failure has returned, and go on while the others
run, credits that failure only, with all its details. -/
theorem queue_overlap_observed :
    let observed := fun field : SlotField =>
      (queue_overlap.memory (8 + field.position) (.slot queue.item field)).toNat
    observed .count = 1
    ∧ (∀ field, ∑ i ∈ queue_overlap.credited queue.item 8,
          (queue_overlap.calls.get i).amount (.slot queue.item field) ≤ observed field
        ∧ observed field ≤ ∑ i ∈ queue_overlap.begun (8 + field.position),
          (queue_overlap.calls.get i).amount (.slot queue.item field))
    ∧ observed .count - observed .failure_count = 0
    ∧ (snapshot (fun i => queue_overlap.memory (8 + i)) queue.item).success.toNat
      ≤ ((queue_overlap.credited queue.item 8).filter
          (fun i => (queue_overlap.calls.get i).successful)).card := by
  have hfits : ∀ field, added queue_overlap.ops (.slot queue.item field) ≤ U64_MAX := by
    intro field
    cases field <;> decide
  have hcredited : (queue_overlap.credited queue.item 8).card = 1 := by decide
  have hsuccesses : ((queue_overlap.credited queue.item 8).filter
          (fun i => (queue_overlap.calls.get i).successful)).card = 0 := by decide
  obtain ⟨hloads, hsnapshot, -⟩ :=
    History.observers_credit_details logging queue_overlap queue.item hfits
  obtain ⟨hcount, hdetails, hsuccess⟩ :=
    hloads (fun field => 8 + field.position) (fun field => Nat.le_add_right 8 _)
  obtain ⟨-, -, -, -, -, -, -, hseen⟩ :=
    hsnapshot (fun i => 8 + i) (fun i j h => Nat.add_le_add_left h 8)
  exact ⟨hcount.trans hcredited, hdetails,
    Nat.le_zero.mp (hsuccess.trans (by rw [← hsuccesses]; rfl)), hseen⟩

end BrzMetrics
