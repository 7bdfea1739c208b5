/-
The updates of a process are a recording.

Threads update the handles they have got while other threads register, and a thread
may be stopped between two operations of one call. `Process.follow` keeps a ledger of
the calls that add to counters (`CallLedger`): which have begun, which operations they
have made, which thread is in which. `Process.Tracks` says that the ledger is right,
and that every atomic which is not that of a gauge holds what the ledger's operations
add up to. So along every run of a process its counters are those of a `Recording` of
a history that has the same registrations (`Process.updates_recorded`), and all that
is known of recordings holds of processes.
-/
import BrzMetrics.CallLedger
import BrzMetrics.Building

set_option autoImplicit false

namespace BrzMetrics

open KeyedStore Linearize Interleave CallLedger

/-! ## Calls that count -/

/-- The atomic of an operation. -/
def ScalarOp.target : ScalarOp → Atomic
  | .fetch_add op => op.target
  | .store op => op.target

/-- An operation that adds. -/
def ScalarOp.addition : ScalarOp → Option FetchAdd
  | .fetch_add op => some op
  | .store _ => none

theorem ScalarOp.apply_of_ne (memory : Memory) {op : ScalarOp} {atomic : Atomic}
    (h : atomic ≠ op.target) : op.apply memory atomic = memory atomic := by
  cases op with
  | fetch_add op => exact Function.update_of_ne h _ _
  | store op => exact Function.update_of_ne h _ _

theorem filterMap_addition (ops : List FetchAdd) :
    (ops.map ScalarOp.fetch_add).filterMap ScalarOp.addition = ops := by
  rw [List.filterMap_map]
  exact List.filterMap_some

/-- A call as one that adds to counters. Calls on gauges do not. -/
def UpdateCall.counting : UpdateCall → Option HandleCall
  | .timing call => some call
  | .scalar call => match call with
    | .counter_inc counter => some (.inc counter)
    | .counter_add counter value => some (.add counter value)
    | .gauge_inc _ | .gauge_dec _ | .gauge_add _ _ | .gauge_set _ _ => none

/-- A call that counts is the same call, with the same operations. -/
theorem UpdateCall.counting_some {self : UpdateCall} {call : HandleCall}
    (h : self.counting = some call) :
    self.ops = call.ops.map .fetch_add ∧ self.handle = call.handle := by
  cases self with
  | timing call =>
    obtain rfl := Option.some.inj h
    exact ⟨rfl, rfl⟩
  | scalar scalar =>
    cases scalar with
    | counter_inc counter | counter_add counter _ =>
      obtain rfl := Option.some.inj h
      exact ⟨rfl, rfl⟩
    | gauge_inc _ | gauge_dec _ | gauge_add _ _ | gauge_set _ _ => cases h

/-- Any other call is on a gauge, and touches nothing else. -/
theorem UpdateCall.counting_none {self : UpdateCall} (h : self.counting = none) :
    ∃ gauge, self.handle = .gauge gauge ∧ ∀ op ∈ self.ops, op.target = .scalar gauge.item := by
  cases self with
  | timing call => cases h
  | scalar scalar =>
    cases scalar with
    | counter_inc _ | counter_add _ _ => cases h
    | gauge_inc gauge | gauge_dec gauge | gauge_add gauge _ | gauge_set gauge _ =>
      refine ⟨gauge, rfl, fun op hop => ?_⟩
      obtain rfl := List.mem_singleton.mp hop
      rfl

/-- What a thread has left to add. -/
def ThreadPc.left : ThreadPc → List FetchAdd
  | .updating ops => ops.filterMap ScalarOp.addition
  | .outside | .waiting _ | .inside _ _ _ => []

/-- A thread that is in no update. -/
def ThreadPc.NoUpdate (self : ThreadPc) : Prop := ∀ ops, self ≠ .updating ops

/-- The call a move begins, if it is one that counts. -/
def Move.counting : Move → Option HandleCall
  | .update _ made => made.counting
  | .call _ _ | .enter _ | .lock _ | .access _ | .unlock _ | .apply _ | .read _ _ => none

/-! ## The ledger of a process -/

/-- The calls of a process that count. -/
abbrev Calls := Ledger ℕ HandleCall FetchAdd

/-- Memory after the steps of a ledger. -/
def Calls.memory (self : Calls) : Memory := state (self.steps.map Prod.snd) self.steps.length

theorem FetchAdd.apply_congr (op : FetchAdd) {memory memory' : Memory} {atomic : Atomic}
    (h : memory atomic = memory' atomic) : op.apply memory atomic = op.apply memory' atomic := by
  by_cases heq : atomic = op.target
  · subst heq
    rw [apply, apply, Function.update_self, Function.update_self, h]
  · rw [apply, apply, Function.update_of_ne heq, Function.update_of_ne heq, h]

/-- A step of a thread in a call is an addition to memory. -/
theorem Calls.memory_make {l : Calls} {t i : ℕ} (h : l.current t = some i) (op : FetchAdd) :
    Calls.memory (l.make t op) = op.apply l.memory := by
  have hsteps : (l.make t op).steps = l.steps ++ [(i, op)] := by
    rw [Ledger.make, h]
    rfl
  rw [memory, memory, state, state, hsteps, List.map_append, List.take_of_length_le (by simp),
    List.take_of_length_le (by simp), List.foldl_append]
  rfl

/-- A thread in no call of the ledger leaves no trace in it. -/
theorem Calls.make_of_none {l : Calls} {t : ℕ} (h : l.current t = none) (op : FetchAdd) :
    l.make t op = l := by
  rw [Ledger.make, h]
  exact congrArg (fun steps => Ledger.mk l.calls steps l.current) (List.append_nil _)

namespace Process

/-- The ledger after one more move of a process. -/
def follow (self : Process) (move : Move) (ledger : Calls) : Calls :=
  match move with
  | .update t call =>
    match call.counting with
    | some call => ledger.begin_call t call
    | none => ledger
  | .apply t =>
    match (self.threads t).pc with
    | .updating (.fetch_add op :: _) => ledger.make t op
    | .updating [] => ledger.leave t
    | _ => ledger
  | .call _ _ | .enter _ | .lock _ | .access _ | .unlock _ | .read _ _ => ledger

/-- The ledger after a schedule. -/
def ledger (host : Host) : List Move → Process → Calls → Calls
  | [], _, l => l
  | move :: schedule, self, l =>
    match self.step host move with
    | some next => ledger host schedule next (self.follow move l)
    | none => l

/-- The ledger is that of the process. -/
structure Tracks (p : Process) (l : Calls) : Prop where
  valid : l.Valid HandleCall.ops (fun t => (p.threads t).pc.left)
  counting : ∀ t i, l.current t = some i →
    ∃ ops : List FetchAdd, (p.threads t).pc = .updating (ops.map .fetch_add)
  others : ∀ t ops, l.current t = none → (p.threads t).pc = .updating ops →
    ∃ gauge, .gauge gauge ∈ p.returned ∧ ∀ op ∈ ops, op.target = .scalar gauge.item
  handles : ∀ call ∈ l.calls, call.handle ∈ p.returned
  memory : ∀ atomic, (∀ gauge, .gauge gauge ∈ p.returned → atomic ≠ .scalar gauge.item) →
    p.memory atomic = l.memory atomic

theorem tracks_new : Tracks new Ledger.new where
  valid := Ledger.valid_new
  counting := fun _ _ h => absurd h.symm (Option.some_ne_none _)
  others := fun _ _ _ h => ThreadPc.noConfusion h
  handles := fun _ h => absurd h List.not_mem_nil
  memory := fun _ _ => rfl

section Tracks

variable {host : Host} {p q : Process} {l : Calls}

theorem returned_subset (h : p.history <+: q.history) : p.returned ⊆ q.returned :=
  (h.filterMap _).subset

/-- A thread that is in no update is in no call of the ledger. -/
theorem Tracks.current_none (h : Tracks p l) {t : ℕ} (ht : (p.threads t).pc.NoUpdate) :
    l.current t = none := by
  rw [Option.eq_none_iff_forall_ne_some]
  intro i hi
  obtain ⟨ops, hops⟩ := h.counting t i hi
  exact ht _ hops

/-- A move that is not about updates. -/
theorem Tracks.stay (h : Tracks p l) (hmemory : q.memory = p.memory)
    (hreturned : p.returned ⊆ q.returned)
    (hthreads : ∀ t, (q.threads t).pc = (p.threads t).pc
      ∨ (p.threads t).pc.NoUpdate ∧ (q.threads t).pc.NoUpdate) : Tracks q l where
  valid := h.valid.congr (fun t i ht => by
    rcases hthreads t with heq | ⟨hidle, -⟩
    · rw [heq]
    · rw [h.current_none hidle] at ht
      exact absurd ht.symm (Option.some_ne_none i))
  counting := fun t i ht => by
    rcases hthreads t with heq | ⟨hidle, -⟩
    · rw [heq]
      exact h.counting t i ht
    · rw [h.current_none hidle] at ht
      exact absurd ht.symm (Option.some_ne_none i)
  others := fun t ops ht hpc => by
    rcases hthreads t with heq | ⟨-, hidle⟩
    · rw [heq] at hpc
      obtain ⟨gauge, hgauge, hops⟩ := h.others t ops ht hpc
      exact ⟨gauge, hreturned hgauge, hops⟩
    · exact absurd hpc (hidle ops)
  handles := fun call hcall => hreturned (h.handles call hcall)
  memory := fun atomic hatomic => by
    rw [hmemory]
    exact h.memory atomic (fun gauge hgauge => hatomic gauge (hreturned hgauge))

/-- One thread has moved, from no update to no update. -/
theorem Tracks.stay_thread (h : Tracks p l) {t : ℕ} {thread : Thread} (hmemory : q.memory = p.memory)
    (hreturned : p.returned ⊆ q.returned) (hthreads : q.threads = Function.update p.threads t thread)
    (hbefore : (p.threads t).pc.NoUpdate) (hafter : thread.pc.NoUpdate) : Tracks q l := by
  refine h.stay hmemory hreturned (fun t' => ?_)
  rw [hthreads]
  by_cases heq : t' = t
  · subst heq
    rw [Function.update_self]
    exact .inr ⟨hbefore, hafter⟩
  · rw [Function.update_of_ne heq]
    exact .inl rfl

theorem set_thread_self (p : Process) (t : ℕ) (thread : Thread) :
    ((p.set_thread t thread).threads t).pc = thread.pc :=
  congrArg Thread.pc (Function.update_self _ _ _)

theorem set_thread_ne (p : Process) {t t' : ℕ} (thread : Thread) (h : t' ≠ t) :
    ((p.set_thread t thread).threads t').pc = (p.threads t').pc :=
  congrArg Thread.pc (Function.update_of_ne h _ _)

/-- A thread begins an update of a handle it has got. -/
theorem Tracks.update (h : Tracks p l) {t : ℕ} {call : UpdateCall}
    (hidle : p.threads t = ⟨.outside, []⟩) (hreturned : call.handle ∈ p.returned) :
    Tracks (p.set_thread t ⟨.updating call.ops, []⟩) (p.follow (.update t call) l) := by
  have hcurrent : l.current t = none :=
    h.current_none (by rw [hidle]; exact fun _ => ThreadPc.noConfusion)
  have hself := p.set_thread_self t ⟨.updating call.ops, []⟩
  have hother := fun t' (ht' : t' ≠ t) => p.set_thread_ne ⟨.updating call.ops, []⟩ ht'
  cases hcounting : call.counting with
  | some counted =>
    obtain ⟨hops, hhandle⟩ := call.counting_some hcounting
    have hledger : p.follow (.update t call) l = l.begin_call t counted := by
      rw [follow, hcounting]
    have hnext : (l.begin_call t counted).current
        = Function.update l.current t (some l.calls.length) := rfl
    rw [hledger]
    refine ⟨h.valid.begin_call hcurrent ?_ (fun t' ht' => by rw [hother t' ht']), fun t' i ht' => ?_,
      fun t' ops ht' hpc => ?_, fun made hmade => ?_, h.memory⟩
    · rw [hself, ThreadPc.left, hops, filterMap_addition]
    · by_cases heq : t' = t
      · rw [heq, hself]
        exact ⟨_, congrArg ThreadPc.updating hops⟩
      · rw [hother t' heq]
        rw [hnext, Function.update_of_ne heq] at ht'
        exact h.counting t' i ht'
    · have heq : t' ≠ t := fun heq => by
        rw [hnext, heq, Function.update_self] at ht'
        exact Option.some_ne_none _ ht'
      rw [hother t' heq] at hpc
      rw [hnext, Function.update_of_ne heq] at ht'
      exact h.others t' ops ht' hpc
    · rcases List.mem_append.mp hmade with hmade | hmade
      · exact h.handles made hmade
      · rw [List.mem_singleton.mp hmade, ← hhandle]
        exact hreturned
  | none =>
    -- a call on a gauge: nothing for the ledger
    obtain ⟨gauge, hhandle, hops⟩ := call.counting_none hcounting
    have hledger : p.follow (.update t call) l = l := by rw [follow, hcounting]
    rw [hledger]
    have hne : ∀ t' i, l.current t' = some i → t' ≠ t := fun t' i ht' heq => by
      rw [heq, hcurrent] at ht'
      exact Option.some_ne_none i ht'.symm
    refine ⟨h.valid.congr (fun t' i ht' => by rw [hother t' (hne t' i ht')]), fun t' i ht' => ?_,
      fun t' ops ht' hpc => ?_, h.handles, h.memory⟩
    · rw [hother t' (hne t' i ht')]
      exact h.counting t' i ht'
    · by_cases heq : t' = t
      · rw [heq, hself] at hpc
        obtain rfl := ThreadPc.updating.inj hpc
        exact ⟨gauge, hhandle ▸ hreturned, hops⟩
      · rw [hother t' heq] at hpc
        exact h.others t' ops ht' hpc

/-- An operation of a call that does not count is on a gauge. -/
theorem Tracks.apply_other (h : Tracks p l) {t : ℕ} {op : ScalarOp} {ops : List ScalarOp}
    (hpc : (p.threads t).pc = .updating (op :: ops)) (hcurrent : l.current t = none) :
    Tracks { p.set_pc t (.updating ops) with memory := op.apply p.memory } l := by
  have hself := p.set_thread_self t ⟨.updating ops, (p.threads t).todo⟩
  have hother := fun t' (ht' : t' ≠ t) =>
    p.set_thread_ne ⟨.updating ops, (p.threads t).todo⟩ ht'
  obtain ⟨gauge, hgauge, hops⟩ := h.others t _ hcurrent hpc
  have hne : ∀ t' i, l.current t' = some i → t' ≠ t := fun t' i ht' heq => by
    rw [heq, hcurrent] at ht'
    exact Option.some_ne_none i ht'.symm
  refine ⟨h.valid.congr (fun t' i ht' => congrArg ThreadPc.left (hother t' (hne t' i ht'))),
    fun t' i ht' => ?_, fun t' ops' ht' hpc' => ?_, h.handles, fun atomic hatomic => ?_⟩
  · obtain ⟨fs, hfs⟩ := h.counting t' i ht'
    exact ⟨fs, (hother t' (hne t' i ht')).trans hfs⟩
  · by_cases heq : t' = t
    · rw [heq] at hpc'
      obtain rfl := ThreadPc.updating.inj (hself.symm.trans hpc')
      exact ⟨gauge, hgauge, fun o ho => hops o (List.mem_cons_of_mem _ ho)⟩
    · exact h.others t' ops' ht' ((hother t' heq).symm.trans hpc')
  · rw [← h.memory atomic hatomic]
    refine op.apply_of_ne p.memory ?_
    rw [hops op List.mem_cons_self]
    exact hatomic gauge hgauge

/-- An operation of a call that counts is one of the ledger's steps. -/
theorem Tracks.apply_counting (h : Tracks p l) {t i : ℕ} {op : ScalarOp} {ops : List ScalarOp}
    (hpc : (p.threads t).pc = .updating (op :: ops)) (hcurrent : l.current t = some i) :
    Tracks { p.set_pc t (.updating ops) with memory := op.apply p.memory }
      (p.follow (.apply t) l) := by
  have hself := p.set_thread_self t ⟨.updating ops, (p.threads t).todo⟩
  have hother := fun t' (ht' : t' ≠ t) =>
    p.set_thread_ne ⟨.updating ops, (p.threads t).todo⟩ ht'
  -- so it is an addition, and so are those that are left
  obtain ⟨fs, hfs⟩ := h.counting t i hcurrent
  rw [hpc] at hfs
  have hadds := ThreadPc.updating.inj hfs
  cases fs with
  | nil => exact absurd hadds (List.cons_ne_nil _ _)
  | cons f fs =>
    obtain ⟨rfl, rfl⟩ := List.cons.inj hadds
    have hledger : p.follow (.apply t) l = l.make t f := by rw [follow, hpc]
    rw [hledger]
    have hleft : (p.threads t).pc.left = f :: fs := by
      rw [hpc]
      exact filterMap_addition (f :: fs)
    have hleft' := (congrArg ThreadPc.left hself).trans (filterMap_addition fs)
    refine ⟨h.valid.make hleft hleft' (fun t' ht' => congrArg ThreadPc.left (hother t' ht')),
      fun t' j ht' => ?_, fun t' ops' ht' hpc' => ?_, h.handles, fun atomic hatomic => ?_⟩
    · by_cases heq : t' = t
      · rw [heq]
        exact ⟨fs, hself⟩
      · obtain ⟨fs', hfs'⟩ := h.counting t' j ht'
        exact ⟨fs', (hother t' heq).trans hfs'⟩
    · have heq : t' ≠ t := fun heq => by
        change l.current t' = none at ht'
        rw [heq, hcurrent] at ht'
        exact Option.some_ne_none i ht'
      exact h.others t' ops' ht' ((hother t' heq).symm.trans hpc')
    · rw [Calls.memory_make hcurrent]
      exact f.apply_congr (h.memory atomic hatomic)

/-- A thread makes the next operation of its update. -/
theorem Tracks.apply (h : Tracks p l) {t : ℕ} {op : ScalarOp} {ops : List ScalarOp}
    (hpc : (p.threads t).pc = .updating (op :: ops)) :
    Tracks { p.set_pc t (.updating ops) with memory := op.apply p.memory }
      (p.follow (.apply t) l) := by
  cases hcurrent : l.current t with
  | some i => exact h.apply_counting hpc hcurrent
  | none =>
    have hledger : p.follow (.apply t) l = l := by
      rw [follow, hpc]
      cases op with
      | fetch_add op => exact Calls.make_of_none hcurrent op
      | store op => rfl
    rw [hledger]
    exact h.apply_other hpc hcurrent

/-- A thread returns from its update. -/
theorem Tracks.apply_last (h : Tracks p l) {t : ℕ} (hpc : (p.threads t).pc = .updating []) :
    Tracks (p.set_pc t .outside) (p.follow (.apply t) l) := by
  have hself := p.set_thread_self t ⟨.outside, (p.threads t).todo⟩
  have hother := fun t' (ht' : t' ≠ t) => p.set_thread_ne ⟨.outside, (p.threads t).todo⟩ ht'
  have hledger : p.follow (.apply t) l = l.leave t := by rw [follow, hpc]
  have hcurrent : (l.leave t).current = Function.update l.current t none := rfl
  rw [hledger]
  refine ⟨h.valid.leave (by rw [hpc]; rfl) (fun t' ht' => congrArg ThreadPc.left (hother t' ht')),
    fun t' i ht' => ?_, fun t' ops ht' hpc' => ?_, h.handles, h.memory⟩
  · have heq : t' ≠ t := fun heq => by
      rw [hcurrent, heq, Function.update_self] at ht'
      exact Option.some_ne_none i ht'.symm
    rw [hcurrent, Function.update_of_ne heq] at ht'
    obtain ⟨fs, hfs⟩ := h.counting t' i ht'
    exact ⟨fs, (hother t' heq).trans hfs⟩
  · have heq : t' ≠ t := fun heq => by
      rw [heq] at hpc'
      exact ThreadPc.noConfusion (hself.symm.trans hpc')
    rw [hcurrent, Function.update_of_ne heq] at ht'
    exact h.others t' ops ht' ((hother t' heq).symm.trans hpc')

/-- Every move keeps the ledger right. -/
theorem Tracks.happens {move : Move} (hmove : p.Happens host move q) (h : Tracks p l) :
    Tracks q (p.follow move l) := by
  have hkept : p.returned ⊆ p.returned := fun _ hh => hh
  have hpc : ∀ {t : ℕ} {pc : ThreadPc}, (p.threads t).pc = pc → pc.NoUpdate →
      (p.threads t).pc.NoUpdate := fun heq hidle => by rwa [heq]
  cases hmove with
  | call t call hidle =>
    exact h.stay_thread rfl hkept rfl (by rw [hidle]; exact fun _ => ThreadPc.noConfusion)
      (fun _ => ThreadPc.noConfusion)
  | enter t access todo hidle =>
    exact h.stay_thread rfl (returned_subset (List.prefix_append _ _)) rfl
      (by rw [hidle]; exact fun _ => ThreadPc.noConfusion) (fun _ => ThreadPc.noConfusion)
  | lock_timing t op profile timing hwaiting htarget hstep =>
    exact h.stay_thread rfl hkept rfl (hpc hwaiting (fun _ => ThreadPc.noConfusion))
      (fun _ => ThreadPc.noConfusion)
  | lock_scalar t op request scalars hwaiting htarget hstep =>
    exact h.stay_thread rfl hkept rfl (hpc hwaiting (fun _ => ThreadPc.noConfusion))
      (fun _ => ThreadPc.noConfusion)
  | lock_states t name key value hwaiting hfree =>
    exact h.stay_thread rfl hkept rfl (hpc hwaiting (fun _ => ThreadPc.noConfusion))
      (fun _ => ThreadPc.noConfusion)
  | unlock_timing t access shard result timing hinside hstep =>
    exact h.stay_thread rfl (returned_subset (List.prefix_append _ _)) rfl
      (hpc hinside (fun _ => ThreadPc.noConfusion)) (fun _ => ThreadPc.noConfusion)
  | unlock_scalar t access shard result scalars hinside hstep =>
    exact h.stay_thread rfl (returned_subset (List.prefix_append _ _)) rfl
      (hpc hinside (fun _ => ThreadPc.noConfusion)) (fun _ => ThreadPc.noConfusion)
  | unlock_states t access result hinside =>
    exact h.stay_thread rfl (returned_subset (List.prefix_append _ _)) rfl
      (hpc hinside (fun _ => ThreadPc.noConfusion)) (fun _ => ThreadPc.noConfusion)
  | update t call hidle hreturned => exact h.update hidle hreturned
  | apply_last t hupdating => exact h.apply_last hupdating
  | apply t op ops hupdating => exact h.apply hupdating
  | access_timing _ _ _ _ _ _ _ | access_scalar _ _ _ _ _ _ _ | visit_timing _ _ _ _
  | visit_scalars _ _ _ _ _ | built _ _ _ _ _ _ =>
    exact h.stay rfl hkept (fun _ => .inl rfl)

/-- A ledger only grows. -/
theorem le_follow (p : Process) (move : Move) (l : Calls) :
    l.Le (p.follow move l) ∧ (p.follow move l).calls = l.calls ++ move.counting.toList := by
  have hstay : ∀ l' : Calls, l' = l → l.Le l' ∧ l'.calls = l.calls ++ [] := by
    rintro _ rfl
    exact ⟨Ledger.Le.refl _, (List.append_nil _).symm⟩
  cases move with
  | update t call =>
    rw [follow, Move.counting]
    cases call.counting with
    | none => exact hstay _ rfl
    | some counted => exact ⟨l.le_begin_call t counted, rfl⟩
  | apply t =>
    rw [follow, Move.counting]
    split
    · exact ⟨l.le_make t _, (List.append_nil _).symm⟩
    · exact ⟨l.le_leave t, (List.append_nil _).symm⟩
    · exact hstay _ rfl
  | call _ _ | enter _ | lock _ | access _ | unlock _ | read _ _ => exact hstay _ rfl

/-- Along a run the ledger stays right, and grows by the calls that are begun. -/
theorem Tracks.run {schedule : List Move} (h : Tracks p l) (hs : p.run host schedule = some q) :
    Tracks q (ledger host schedule p l) ∧ l.Le (ledger host schedule p l)
      ∧ (ledger host schedule p l).calls = l.calls ++ schedule.filterMap Move.counting := by
  induction schedule generalizing p l with
  | nil =>
    obtain rfl : p = q := Option.some.inj hs
    exact ⟨h, Ledger.Le.refl l, (List.append_nil _).symm⟩
  | cons move schedule ih =>
    rw [Process.run, List.foldlM_cons] at hs
    obtain ⟨next, hnext, hrest⟩ := Option.bind_eq_some_iff.mp hs
    obtain ⟨hle, hcalls⟩ := le_follow p move l
    obtain ⟨htracks, hle', hcalls'⟩ := ih (h.happens (step_happens hnext)) hrest
    rw [ledger, hnext]
    refine ⟨htracks, hle.trans hle', ?_⟩
    rw [hcalls', hcalls, List.append_assoc, List.filterMap_cons]
    cases move.counting <;> rfl

theorem ledger_append {before after : List Move} (hs : p.run host before = some q) :
    ledger host (before ++ after) p l = ledger host after q (ledger host before p l) := by
  induction before generalizing p l with
  | nil =>
    obtain rfl : p = q := Option.some.inj hs
    rfl
  | cons move before ih =>
    rw [Process.run, List.foldlM_cons] at hs
    obtain ⟨next, hnext, hrest⟩ := Option.bind_eq_some_iff.mp hs
    rw [List.cons_append, ledger, ledger, hnext]
    exact ih hrest

end Tracks

end Process

end BrzMetrics
