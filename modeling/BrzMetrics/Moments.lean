/-
The calls of a process, moment by moment.

A schedule says when every call was begun and by whom (`called`), and the states of
the process say when its thread was outside again (`Called.returned`). The ledger of
the process puts the two together: a call that has not begun has done nothing, and a
call that has returned has done all its operations. So a run of a process is a
recording of its calls with a point of time for every moment of the run, in which the
counters agree (`Process.updates_recorded`).
-/
import BrzMetrics.Updates

set_option autoImplicit false

namespace BrzMetrics

open KeyedStore Linearize Interleave CallLedger

namespace Process

/-! ## Moments of a run -/

/-- The process after the first `k` moves of a schedule. -/
def moment (host : Host) (schedule : List Move) (k : ℕ) : Process :=
  (new.run host (schedule.take k)).getD new

end Process

/-- A call that counts: when it was begun, by whom, and what it is. -/
structure Called where
  moment : ℕ
  thread : ℕ
  call : HandleCall

/-- The call that a move begins at some moment. -/
def Move.called (moment : ℕ) : Move → Option Called
  | .update thread made => made.counting.map (fun call => ⟨moment, thread, call⟩)
  | .call _ _ | .enter _ | .lock _ | .access _ | .unlock _ | .apply _ | .read _ _ => none

/-- The calls of a schedule that count, as they are begun. -/
def called (schedule : List Move) : List Called :=
  schedule.zipIdx.filterMap (fun m => m.1.called m.2)

/-- Whether a thread is in no function of the crate. -/
def ThreadPc.is_outside : ThreadPc → Bool
  | .outside => true
  | .waiting _ | .inside _ _ _ | .updating _ => false

/-- Whether a call has returned by the moment `k`: its thread has been outside since. -/
def Called.returned (host : Host) (schedule : List Move) (k : ℕ) (self : Called) : Bool :=
  (List.range' (self.moment + 1) (k - self.moment)).any (fun j =>
    ((Process.moment host schedule j).threads self.thread).pc.is_outside)

namespace Process

section Moments

variable {host : Host} {schedule : List Move} {p : Process}

theorem run_take (hrun : new.run host schedule = some p) (k : ℕ) :
    new.run host (schedule.take k) = some (moment host schedule k) := by
  have hsplit := hrun
  rw [← List.take_append_drop k schedule, Process.run, List.foldlM_append] at hsplit
  obtain ⟨q, hq, -⟩ := Option.bind_eq_some_iff.mp hsplit
  rw [moment, Process.run, hq]
  rfl

theorem run_between (hrun : new.run host schedule = some p) {j k : ℕ} (h : j ≤ k) :
    (moment host schedule j).run host ((schedule.take k).drop j) = some (moment host schedule k) := by
  have hk := run_take hrun k
  rw [← List.take_append_drop j (schedule.take k), Process.run, List.foldlM_append,
    List.take_take, min_eq_left h] at hk
  obtain ⟨q, hq, hrest⟩ := Option.bind_eq_some_iff.mp hk
  have hj := run_take hrun j
  rw [Process.run] at hj
  obtain rfl := Option.some.inj (hj.symm.trans hq)
  exact hrest

theorem moment_last (hrun : new.run host schedule = some p) :
    moment host schedule schedule.length = p := by
  rw [moment, List.take_length, hrun]
  rfl

/-- The ledger at a moment. -/
def ledger_at (host : Host) (schedule : List Move) (k : ℕ) : Calls :=
  ledger host (schedule.take k) new Ledger.new

theorem tracks_at (hrun : new.run host schedule = some p) (k : ℕ) :
    Tracks (moment host schedule k) (ledger_at host schedule k)
      ∧ (ledger_at host schedule k).calls = (schedule.take k).filterMap Move.counting := by
  obtain ⟨htracks, -, hcalls⟩ := tracks_new.run (run_take hrun k)
  exact ⟨htracks, hcalls⟩

theorem ledger_mono (hrun : new.run host schedule = some p) {j k : ℕ} (h : j ≤ k) :
    (ledger_at host schedule j).Le (ledger_at host schedule k) := by
  have hsplit : schedule.take k = schedule.take j ++ (schedule.take k).drop j := by
    conv_lhs => rw [← List.take_append_drop j (schedule.take k), List.take_take, min_eq_left h]
  rw [ledger_at, ledger_at, hsplit, ledger_append (run_take hrun j)]
  exact ((tracks_at hrun j).1.run (run_between hrun h)).2.1

/-- Calls are numbered as they are begun. -/
theorem called_calls (schedule : List Move) :
    (called schedule).map Called.call = schedule.filterMap Move.counting := by
  have hmove : ∀ (m : Move) (k : ℕ), (m.called k).map Called.call = m.counting := by
    intro m k
    cases m with
    | update t made =>
      rw [Move.called, Move.counting, Option.map_map]
      exact Option.map_id'
    | call _ _ | enter _ | lock _ | access _ | unlock _ | apply _ | read _ _ => rfl
  have hall : ∀ n, ((schedule.zipIdx n).filterMap (fun m => m.1.called m.2)).map Called.call
      = schedule.filterMap Move.counting := by
    induction schedule with
    | nil => exact fun _ => rfl
    | cons move schedule ih =>
      intro n
      rw [List.zipIdx_cons, List.filterMap_cons, List.filterMap_cons, ← hmove move n]
      cases move.called n with
      | none => exact ih (n + 1)
      | some c => exact congrArg (List.cons c.call) (ih (n + 1))
  exact hall 0

/-- The calls of a schedule whose moves are numbered from `n` on. -/
theorem called_from {schedule : List Move} {n i : ℕ} {c : Called}
    (h : ((schedule.zipIdx n).filterMap (fun m => m.1.called m.2))[i]? = some c) :
    ∃ k made, c.moment = n + k ∧ schedule[k]? = some (.update c.thread made)
      ∧ made.counting = some c.call
      ∧ i = ((schedule.take k).filterMap Move.counting).length := by
  induction schedule generalizing n i with
  | nil => exact absurd h.symm (Option.some_ne_none c)
  | cons move schedule ih =>
    rw [List.zipIdx_cons, List.filterMap_cons] at h
    -- the call is that of the first move, or of a later one
    have hlater : ∀ j, ((schedule.zipIdx (n + 1)).filterMap (fun m => m.1.called m.2))[j]? = some c →
        i = (move.counting.toList).length + j → ∃ k made, c.moment = n + k
          ∧ (move :: schedule)[k]? = some (.update c.thread made) ∧ made.counting = some c.call
          ∧ i = (((move :: schedule).take k).filterMap Move.counting).length := by
      intro j hj hi
      obtain ⟨k, made, hmoment, hmove, hcall, rfl⟩ := ih hj
      refine ⟨k + 1, made, by omega, hmove, hcall, ?_⟩
      rw [hi, List.take_succ_cons, List.filterMap_cons]
      cases move.counting with
      | none => exact Nat.zero_add _
      | some _ => exact Nat.add_comm _ _
    cases hcalled : move.called n with
    | none =>
      rw [hcalled] at h
      refine hlater i h ?_
      have hnone : move.counting = none := by
        cases move with
        | update t made => exact Option.map_eq_none_iff.mp hcalled
        | call _ _ | enter _ | lock _ | access _ | unlock _ | apply _ | read _ _ => rfl
      rw [hnone]
      exact (Nat.zero_add i).symm
    | some c' =>
      rw [hcalled] at h
      cases move with
      | update t made =>
        obtain ⟨call, hcounting, rfl⟩ := Option.map_eq_some_iff.mp hcalled
        cases i with
        | zero =>
          obtain rfl := Option.some.inj h
          exact ⟨0, made, rfl, rfl, hcounting, rfl⟩
        | succ i =>
          refine hlater i h ?_
          rw [Move.counting, hcounting]
          exact Nat.add_comm _ _
      | call _ _ | enter _ | lock _ | access _ | unlock _ | apply _ | read _ _ => cases hcalled

/-- What is known of a call of a schedule, and its number. -/
theorem called_spec {schedule : List Move} {i : ℕ} {c : Called}
    (h : (called schedule)[i]? = some c) :
    ∃ made, schedule[c.moment]? = some (.update c.thread made) ∧ made.counting = some c.call
      ∧ i = ((schedule.take c.moment).filterMap Move.counting).length := by
  obtain ⟨k, made, hmoment, hmove, hcall, hi⟩ := called_from h
  rw [Nat.zero_add] at hmoment
  subst hmoment
  exact ⟨made, hmove, hcall, hi⟩

/-- A call that has not begun has done nothing. -/
theorem progress_unbegun (hrun : new.run host schedule = some p) {i k : ℕ} {c : Called}
    (hc : (called schedule)[i]? = some c) (hk : k ≤ c.moment) :
    progress (ledger_at host schedule k).steps i = [] := by
  obtain ⟨-, -, -, rfl⟩ := called_spec hc
  obtain ⟨htracks, hcalls⟩ := tracks_at hrun k
  refine htracks.valid.progress_ge ?_
  rw [hcalls]
  exact (((List.take_prefix_take_left hk).sublist).filterMap _).length_le

/-- A call that has returned has done all it does. -/
theorem progress_returned (hrun : new.run host schedule = some p) {i k : ℕ} {c : Called}
    (hc : (called schedule)[i]? = some c) (hk : c.returned host schedule k = true) :
    progress (ledger_at host schedule k).steps i = c.call.ops := by
  obtain ⟨made, hmove, hcounting, hi⟩ := called_spec hc
  obtain ⟨j, hj, houtside⟩ := List.any_eq_true.mp hk
  obtain ⟨hlt, hle⟩ := List.mem_range'_1.mp hj
  obtain ⟨hmlt, hmget⟩ := List.getElem?_eq_some_iff.mp hmove
  obtain ⟨hbefore, hcalls⟩ := tracks_at hrun c.moment
  -- the call has been begun, and by nobody else
  have hnext : ledger_at host schedule (c.moment + 1)
      = (ledger_at host schedule c.moment).begin_call c.thread c.call := by
    have hsplit : schedule.take (c.moment + 1)
        = schedule.take c.moment ++ [.update c.thread made] := by
      rw [List.take_succ_eq_append_getElem hmlt, hmget]
    have hstep := run_take hrun (c.moment + 1)
    rw [hsplit, Process.run, List.foldlM_append] at hstep
    obtain ⟨q, hq, hlast⟩ := Option.bind_eq_some_iff.mp hstep
    simp only [List.foldlM_cons, List.foldlM_nil, bind_pure] at hlast
    have hm := run_take hrun c.moment
    rw [Process.run] at hm
    obtain rfl := Option.some.inj (hm.symm.trans hq)
    rw [ledger_at, hsplit, ledger_append (run_take hrun c.moment), ledger, hlast]
    change (moment host schedule c.moment).follow (.update c.thread made) _ = _
    rw [follow, hcounting]
    rfl
  have howner : ∀ t, (ledger_at host schedule (c.moment + 1)).current t = some i → t = c.thread := by
    intro t ht
    rw [hnext] at ht
    by_contra hne
    have hold : (ledger_at host schedule c.moment).current t = some i :=
      (Function.update_of_ne hne _ _).symm.trans ht
    have := hbefore.valid.current_lt hold
    rw [hcalls, ← hi] at this
    exact lt_irrefl i this
  have hcount : i < (ledger_at host schedule (c.moment + 1)).calls.length := by
    rw [hnext, Ledger.begin_call, List.length_append, hcalls, ← hi]
    exact Nat.lt_succ_self i
  -- once the thread is outside, the call is over, and it stays so
  obtain ⟨hat, -⟩ := tracks_at hrun j
  have hgrow := ledger_mono hrun (show c.moment + 1 ≤ j from hlt)
  have hgrow' := ledger_mono hrun (show j ≤ k by omega)
  have hover : (ledger_at host schedule k).Over i := by
    intro t ht
    have htj := hgrow'.closed i (hcount.trans_le hgrow.calls.length_le) t ht
    obtain rfl := howner t (hgrow.closed i hcount t htj)
    rw [hat.current_none (fun ops heq => by rw [heq] at houtside; cases houtside)] at htj
    exact Option.some_ne_none i htj.symm
  obtain ⟨hlast, -⟩ := tracks_at hrun k
  refine hlast.valid.finished i c.call ?_ hover
  have hkept := (hgrow.trans hgrow').calls
  obtain ⟨rest, hrest⟩ := hkept
  rw [← hrest, List.getElem?_append_left hcount, hnext, Ledger.begin_call, hi, ← hcalls]
  exact List.getElem?_concat_length

/-- The steps of a ledger at an earlier moment are the beginning of those at a later one. -/
theorem steps_take (hrun : new.run host schedule = some p) {j k : ℕ} (h : j ≤ k) :
    (ledger_at host schedule k).steps.take (ledger_at host schedule j).steps.length
      = (ledger_at host schedule j).steps :=
  (List.prefix_iff_eq_take.mp (ledger_mono hrun h).steps).symm

/-- What a thread has got is what the history of the process has returned. -/
theorem Represented.returned {history : History} (h : p.Represented host history)
    (hrun : new.run host schedule = some p) {handle : Handle} (hhandle : handle ∈ p.returned) :
    ∃ op, history.Returned op handle := by
  obtain ⟨op, hop⟩ := issued_of_returned hrun hhandle
  exact ⟨op, p.order.length, h.issued ▸ hop⟩

/-- What has happened is never forgotten. -/
theorem Happens.history {q : Process} {move : Move} (h : p.Happens host move q) :
    p.history <+: q.history := by
  cases h <;> first | exact List.prefix_rfl | exact List.prefix_append _ _

theorem grows_run {q : Process} {after : List Move} (hs : p.run host after = some q) :
    p.history <+: q.history ∧ p.order <+: q.order := by
  induction after generalizing p with
  | nil =>
    obtain rfl : p = q := Option.some.inj hs
    exact ⟨List.prefix_rfl, List.prefix_rfl⟩
  | cons move after ih =>
    rw [Process.run, List.foldlM_cons] at hs
    obtain ⟨next, hnext, hrest⟩ := Option.bind_eq_some_iff.mp hs
    have hmove := step_happens hnext
    obtain ⟨hhistory, horder⟩ := ih hrest
    exact ⟨hmove.history.trans hhistory, hmove.stays.1.trans horder⟩

/-- A moment of a run, and its end. -/
theorem moment_grows (hrun : new.run host schedule = some p) (k : ℕ) :
    (moment host schedule k).history <+: p.history ∧ (moment host schedule k).order <+: p.order := by
  rcases le_total k schedule.length with hk | hk
  · have hbetween := run_between hrun hk
    rw [moment_last hrun] at hbetween
    exact grows_run hbetween
  · have hlast := run_take hrun k
    rw [List.take_of_length_le hk] at hlast
    rw [Option.some.inj (hlast.symm.trans hrun)]
    exact ⟨List.prefix_rfl, List.prefix_rfl⟩

/-- The handles that threads have got at a moment they have in the end. -/
theorem returned_moment (hrun : new.run host schedule = some p) (k : ℕ) :
    (moment host schedule k).returned ⊆ p.returned :=
  returned_subset (moment_grows hrun k).1

end Moments

/-- A recording of a run. To every moment of the run belongs a point of the recording. -/
structure Records (host : Host) (schedule : List Move) (p : Process) {history : History}
    (r : Recording history) (time : ℕ → ℕ) : Prop where
  /-- It is a recording of the calls that the schedule begins, in that order. -/
  calls : r.calls = (called schedule).map Called.call
  /-- Later moments have later points, and the last has the last. -/
  mono : Monotone time
  last : time schedule.length = r.steps.length
  /-- All atomics but those of gauges hold the same value in both. -/
  memory : ∀ k atomic, (∀ gauge, .gauge gauge ∈ p.returned → atomic ≠ .scalar gauge.item) →
    (moment host schedule k).memory atomic = r.memory (time k) atomic
  /-- A call that has returned by a moment is complete at its point. -/
  complete : ∀ k (i : Fin r.calls.length) c, (called schedule)[i.val]? = some c →
    c.returned host schedule k = true → progress (r.steps.take (time k)) i = (r.calls.get i).ops
  /-- A call that has not begun by then has not made any operation. -/
  unbegun : ∀ k (i : Fin r.calls.length) c, (called schedule)[i.val]? = some c →
    k ≤ c.moment → progress (r.steps.take (time k)) i = []

/-- The ledger of a run is a recording of it. -/
theorem exists_records {host : Host} {schedule : List Move} {p : Process}
    (hrun : new.run host schedule = some p) :
    ∃ (history : History) (r : Recording history) (time : ℕ → ℕ),
      p.Represented host history ∧ Records host schedule p r time := by
  obtain ⟨history, hrep⟩ := exists_history hrun
  -- the last ledger is the recording, and its earlier lengths are the points of time
  obtain ⟨htracks, hcalls⟩ := tracks_at hrun schedule.length
  rw [moment_last hrun] at htracks
  rw [List.take_length] at hcalls
  generalize hlast : ledger_at host schedule schedule.length = last at htracks hcalls
  have hpoint : ∀ k, (ledger_at host schedule k).steps
      = last.steps.take (ledger_at host schedule k).steps.length := by
    intro k
    rw [← hlast]
    rcases le_total k schedule.length with hk | hk
    · exact (steps_take hrun hk).symm
    · have hsame : ledger_at host schedule k = ledger_at host schedule schedule.length := by
        rw [ledger_at, ledger_at, List.take_of_length_le hk, List.take_length]
      rw [hsame, List.take_length]
  refine ⟨history, ⟨last.calls, last.tagged htracks.valid.tags,
      fun call hcall => hrep.returned hrun (htracks.handles call hcall), htracks.valid.concurrent⟩,
    fun k => (ledger_at host schedule k).steps.length, hrep, ?_, ?_, ?_, fun k atomic hatomic => ?_,
    fun k i c hc hover => ?_, fun k i c hc hk => ?_⟩
  · exact hcalls.trans (called_calls schedule).symm
  · exact fun j k hjk => (ledger_mono hrun hjk).steps.length_le
  · exact (congrArg (fun l : Calls => l.steps.length) hlast).trans List.length_pmap.symm
  · obtain ⟨hat, -⟩ := tracks_at hrun k
    rw [hat.memory atomic (fun gauge hgauge => hatomic gauge (returned_moment hrun k hgauge)),
      Calls.memory, Recording.memory, Recording.ops, Ledger.map_snd_tagged, state, state,
      List.take_of_length_le (List.length_map _).le, ← List.map_take, ← hpoint k]
  · have hdone := progress_returned hrun hc hover
    rw [Ledger.progress_tagged, ← hpoint k, hdone]
    have hcall : ((called schedule).map Called.call)[i.val]? = some c.call := by
      rw [List.getElem?_map, hc]
      rfl
    rw [called_calls, ← hcalls] at hcall
    exact congrArg HandleCall.ops
      (Option.some.inj (hcall.symm.trans (List.getElem?_eq_getElem i.isLt)))
  · rw [Ledger.progress_tagged, ← hpoint k]
    exact progress_unbegun hrun hc hk

end Process

/-! ## What the calls add -/

/-- What the calls add to a counter that have been begun before the moment `k`. -/
def begun_amount (schedule : List Move) (k : ℕ) (atomic : Atomic) : ℕ :=
  (((called schedule).filter (fun c => c.moment < k)).map (fun c => c.call.amount atomic)).sum

/-- What the calls add to a counter that have returned by the moment `k`. -/
def returned_amount (host : Host) (schedule : List Move) (k : ℕ) (atomic : Atomic) : ℕ :=
  (((called schedule).filter (Called.returned host schedule k)).map
    (fun c => c.call.amount atomic)).sum

/-- A list is as good as its positions. -/
theorem sum_positions {α : Type} (l : List α) (f : α → ℕ) {n : ℕ} (h : n = l.length) :
    ∑ i : Fin n, f (l.get (Fin.cast h i)) = (l.map f).sum := by
  subst h
  exact Fin.sum_univ_fun_getElem l f

theorem begun_amount_mono (schedule : List Move) {j k : ℕ} (h : j ≤ k) (atomic : Atomic) :
    begun_amount schedule j atomic ≤ begun_amount schedule k atomic := by
  refine List.Sublist.sum_le_sum (List.Sublist.map _ (List.monotone_filter_right _ ?_)) (by simp)
  intro c hc
  exact decide_eq_true ((of_decide_eq_true hc).trans_le h)

theorem returned_amount_mono (host : Host) (schedule : List Move) {j k : ℕ} (h : j ≤ k)
    (atomic : Atomic) :
    returned_amount host schedule j atomic ≤ returned_amount host schedule k atomic := by
  refine List.Sublist.sum_le_sum (List.Sublist.map _ (List.monotone_filter_right _ ?_)) (by simp)
  intro c hc
  obtain ⟨i, hi, houtside⟩ := List.any_eq_true.mp hc
  obtain ⟨hlo, hhi⟩ := List.mem_range'_1.mp hi
  exact List.any_eq_true.mpr ⟨i, List.mem_range'_1.mpr ⟨hlo, by omega⟩, houtside⟩

namespace Process

section Amounts

variable {host : Host} {schedule : List Move} {p : Process}

/-- What a counter has been given by a moment is between what the calls add that have returned, and
what those add that have begun. -/
theorem Records.amounts {history : History} {r : Recording history} {time : ℕ → ℕ}
    (h : Records host schedule p r time) (k : ℕ) (atomic : Atomic) :
    returned_amount host schedule k atomic ≤ added (r.ops.take (time k)) atomic
      ∧ added (r.ops.take (time k)) atomic ≤ begun_amount schedule k atomic := by
  have hlength : r.calls.length = (called schedule).length := by rw [h.calls, List.length_map]
  have htotal : added (r.ops.take (time k)) atomic
      = ∑ i, added (progress (r.steps.take (time k)) i) atomic := by
    rw [Recording.ops, ← List.map_take]
    exact added_progress (r.steps.take (time k)) atomic
  -- call by call: nothing before it has begun, and all of it once it has returned
  have hat : ∀ i : Fin r.calls.length, (called schedule)[i.val]?
      = some ((called schedule).get (Fin.cast hlength i)) :=
    fun i => List.getElem?_eq_getElem (Fin.cast hlength i).isLt
  have hcall : ∀ i : Fin r.calls.length,
      r.calls.get i = ((called schedule).get (Fin.cast hlength i)).call := by
    intro i
    have hget := List.getElem?_map (f := Called.call) (l := called schedule) (i := i.val)
    rw [hat i, ← h.calls] at hget
    exact Option.some.inj ((List.getElem?_eq_getElem i.isLt).symm.trans hget)
  rw [htotal, returned_amount, begun_amount]
  constructor
  · have hsum := sum_map_ite (called schedule) (fun c => c.returned host schedule k = true)
      (fun c => c.call.amount atomic)
    simp only [Bool.decide_eq_true] at hsum
    rw [← hsum, ← sum_positions _ _ hlength]
    refine Finset.sum_le_sum (fun i _ => ?_)
    split_ifs with hreturned
    · rw [h.complete k i _ (hat i) hreturned, HandleCall.added_ops, hcall]
    · exact Nat.zero_le _
  · rw [← sum_map_ite (called schedule) (fun c => c.moment < k) (fun c => c.call.amount atomic),
      ← sum_positions _ _ hlength]
    refine Finset.sum_le_sum (fun i _ => ?_)
    split_ifs with hbegun
    · obtain ⟨rest, hrest⟩ := r.running.take (time k) i
      have hadded := congrArg (fun ops => added ops atomic) hrest
      simp only [added_append] at hadded
      have hops : added (r.calls[i]).ops atomic
          = ((called schedule).get (Fin.cast hlength i)).call.amount atomic := by
        rw [HandleCall.added_ops]
        exact congrArg (fun call => HandleCall.amount call atomic) (hcall i)
      omega
    · rw [h.unbegun k i _ (hat i) (not_lt.mp hbegun)]
      exact le_refl 0

/-- While what the begun calls add fits in a word, a counter is in between. -/
theorem Records.between {history : History} {r : Recording history} {time : ℕ → ℕ}
    (h : Records host schedule p r time) {k : ℕ} {atomic : Atomic}
    (hatomic : ∀ gauge, .gauge gauge ∈ p.returned → atomic ≠ .scalar gauge.item)
    (hfits : begun_amount schedule k atomic ≤ U64_MAX) :
    returned_amount host schedule k atomic ≤ ((moment host schedule k).memory atomic).toNat
      ∧ ((moment host schedule k).memory atomic).toNat ≤ begun_amount schedule k atomic := by
  obtain ⟨hlo, hhi⟩ := h.amounts k atomic
  unfold U64_MAX at hfits
  rw [h.memory k atomic hatomic, Recording.memory, state_toNat, Nat.mod_eq_of_lt (by omega)]
  exact ⟨hlo, hhi⟩

/-- And then it never decreases. -/
theorem Records.monotone {history : History} {r : Recording history} {time : ℕ → ℕ}
    (h : Records host schedule p r time) {j k : ℕ} (hjk : j ≤ k) {atomic : Atomic}
    (hatomic : ∀ gauge, .gauge gauge ∈ p.returned → atomic ≠ .scalar gauge.item)
    (hfits : begun_amount schedule k atomic ≤ U64_MAX) :
    ((moment host schedule j).memory atomic).toNat
      ≤ ((moment host schedule k).memory atomic).toNat := by
  have hgrow := added_take_mono r.ops atomic (h.mono hjk)
  have hhi := (h.amounts k atomic).2
  unfold U64_MAX at hfits
  rw [h.memory j atomic hatomic, h.memory k atomic hatomic, Recording.memory, Recording.memory,
    state_toNat, state_toNat, Nat.mod_eq_of_lt (by omega), Nat.mod_eq_of_lt (by omega)]
  exact hgrow

end Amounts

/-- The updates of a process are a recording, and none is lost or counted twice. For every run of
any number of threads that register, update the handles they have got, and build readers, one
operation at a time: there is a history with the same registrations, and a recording on it of the
calls of the run, that agrees with the run at every moment in all atomics but those of gauges. So at
every moment a counter is at least what the calls add to it that have returned by then, and at most
what those add that have begun, as long as that fits in a word. -/
theorem updates_recorded (host : Host) (schedule : List Move) (p : Process)
    (hrun : new.run host schedule = some p) :
    ∃ (history : History) (r : Recording history) (time : ℕ → ℕ),
      p.Represented host history ∧ Records host schedule p r time
      ∧ ∀ k atomic, (∀ gauge, .gauge gauge ∈ p.returned → atomic ≠ .scalar gauge.item) →
        begun_amount schedule k atomic ≤ U64_MAX →
        returned_amount host schedule k atomic ≤ ((moment host schedule k).memory atomic).toNat
          ∧ ((moment host schedule k).memory atomic).toNat ≤ begun_amount schedule k atomic := by
  obtain ⟨history, r, time, hrep, hrecords⟩ := exists_records hrun
  exact ⟨history, r, time, hrep, hrecords, fun k atomic hatomic hfits =>
    hrecords.between hatomic hfits⟩

/-- One thread has counted an occurrence on a queue, while another is in the middle of recording a
failed operation on it. -/
def queue_updated : List Move :=
  queue_first ++ [.update 1 (.timing (.record queue ⟨0, 60000000, by decide⟩ false)), .apply 1,
    .update 0 (.timing (.increment queue)), .apply 1, .apply 0, .apply 0, .apply 1]

theorem queue_updated_recorded : ∃ p, new.run Host.seedless queue_updated = some p
    ∧ (∃ (history : History) (r : Recording history) (time : ℕ → ℕ),
      p.Represented Host.seedless history ∧ Records Host.seedless queue_updated p r time)
    ∧ 1 ≤ (p.memory (.slot queue.item .count)).toNat
    ∧ (p.memory (.slot queue.item .count)).toNat ≤ 2 := by
  obtain ⟨p, hp⟩ := Option.isSome_iff_exists.mp
    (show (new.run Host.seedless queue_updated).isSome = true by rfl)
  have hreturned : (new.run Host.seedless queue_updated).map returned
      = some [.metric queue] := by rfl
  rw [hp] at hreturned
  have hgauge : ∀ gauge, Handle.gauge gauge ∈ p.returned →
      Atomic.slot queue.item .count ≠ .scalar gauge.item :=
    fun _ _ => Atomic.noConfusion
  obtain ⟨history, r, time, hrep, hrecords, hbetween⟩ :=
    updates_recorded Host.seedless queue_updated p hp
  obtain ⟨hlo, hhi⟩ := hbetween queue_updated.length _ hgauge (by decide)
  rw [moment_last hp] at hlo hhi
  exact ⟨p, hp, ⟨history, r, time, hrep, hrecords⟩,
    (show 1 ≤ returned_amount Host.seedless queue_updated queue_updated.length
      (.slot queue.item .count) by decide).trans hlo,
    hhi.trans (show begun_amount queue_updated queue_updated.length
      (.slot queue.item .count) ≤ 2 by decide)⟩

end Process

end BrzMetrics
