/-
Who holds which mutex.

A thread inside a section knows its mutex and the key it has looked up; a shard
only knows the key its mutex is held for. `Process.Owned` says that the two agree,
that no mutex is held twice (`Exclusive`), and what a thread that releases its
mutex leaves behind: the key of every handle that a thread has got is among those
of the calls that the shard has seen return. It is kept by every move
(`Owned.happens`), and with it the bounds on what a thread in a call, and a shard
whose mutex is held, have left to do.
-/
import BrzMetrics.Exclusion
import BrzMetrics.ProcessHistory

set_option autoImplicit false

namespace BrzMetrics

open KeyedStore Linearize Exclusion

/-! ## The mutex of a shard -/

section Lanes

variable {σ T C K : Type} [ShardKind σ T C K] {l l' : Lane σ T K}

theorem Lane.lock_holder [DecidableEq K] {call : C} (hl : l.lock call = some l') :
    l.holder = none ∧ l'.holder = some (ShardKind.call_key σ call, l'.todo)
      ∧ (l'.todo = [] ∨ l'.todo = ShardKind.accesses l.shard call)
      ∧ l'.returned = l.returned := by
  cases hholder : l.holder with
  | some held => simp [Lane.lock, hholder] at hl
  | none =>
    simp only [Lane.lock, hholder, Option.some.injEq] at hl
    subst hl
    refine ⟨rfl, rfl, ?_, rfl⟩
    simp only [todo, Option.map_some, Option.getD_some]
    split_ifs
    · exact .inl rfl
    · exact .inr rfl

theorem Lane.access_holder (hl : l.access = some l') :
    ∃ k a, l.holder = some (k, a :: l'.todo) ∧ l'.holder = some (k, l'.todo)
      ∧ l'.returned = l.returned := by
  rcases hholder : l.holder with _ | ⟨k, _ | ⟨a, todo⟩⟩ <;>
    simp only [Lane.access, hholder, Option.some.injEq, reduceCtorEq] at hl
  subst hl
  exact ⟨k, a, rfl, rfl, rfl⟩

theorem Lane.unlock_holder (hl : l.unlock = some l') :
    ∃ k, l.holder = some (k, []) ∧ l'.holder = none ∧ l'.returned = l.returned ++ [k] := by
  rcases hholder : l.holder with _ | ⟨k, _ | ⟨a, todo⟩⟩ <;>
    simp only [Lane.unlock, hholder, Option.some.injEq, reduceCtorEq] at hl
  subst hl
  exact ⟨k, rfl, rfl, rfl⟩

end Lanes

namespace Traversals

variable {σ T C K : Type} [ShardKind σ T C K]

/-- The key a shard's mutex is held for. -/
def held (self : Traversals σ T K) (i : Fin SHARD_COUNT) : Option K :=
  (self.lanes i).holder.map Prod.fst

/-- How many accesses the holder of a shard's mutex has left. -/
def left (self : Traversals σ T K) (i : Fin SHARD_COUNT) : ℕ := (self.lanes i).todo.length

/-- The keys of the calls that have returned. -/
def returned (self : Traversals σ T K) (i : Fin SHARD_COUNT) : List K := (self.lanes i).returned

section Steps

variable [DecidableEq K] {route : K → Fin SHARD_COUNT} {s s' : Traversals σ T K}

omit [DecidableEq K] [ShardKind σ T C K] in
/-- What is read of every shard when one of them has changed. -/
theorem read_update {β : Type} (f : Lane σ T K → β) {i : Fin SHARD_COUNT} {l : Lane σ T K}
    (hs : s' = { s with lanes := Function.update s.lanes i l }) :
    (fun j => f (s'.lanes j)) = Function.update (fun j => f (s.lanes j)) i (f l) := by
  subst hs
  exact funext (Function.apply_update (fun _ => f) s.lanes i l)

/-- A call takes a free mutex. -/
theorem held_lock {call : C} (hs : s.step route (.lock call) = some s') :
    s.held (route (ShardKind.call_key σ call)) = none
      ∧ s'.held = Function.update s.held (route (ShardKind.call_key σ call))
          (some (ShardKind.call_key σ call))
      ∧ s'.returned = s.returned := by
  obtain ⟨l, hl, hs'⟩ := Option.map_eq_some_iff.mp hs
  obtain ⟨hfree, hholder, -, hreturned⟩ := Lane.lock_holder hl
  refine ⟨by rw [held, hfree]; rfl, ?_, ?_⟩
  · exact (read_update (fun lane => lane.holder.map Prod.fst) hs'.symm).trans (by rw [hholder]; rfl)
  · refine (read_update Lane.returned hs'.symm).trans ?_
    rw [hreturned]
    exact Function.update_eq_self _ s.returned

/-- An access is one of those that the holder has left. -/
theorem held_access {i : Fin SHARD_COUNT}
    (hs : s.step route (.access i : Turn C) = some s') :
    s'.held = s.held ∧ s'.left i + 1 = s.left i ∧ s'.returned = s.returned := by
  obtain ⟨l, hl, hs'⟩ := Option.map_eq_some_iff.mp hs
  obtain ⟨k, a, hholder, hholder', hreturned⟩ := Lane.access_holder hl
  refine ⟨?_, ?_, ?_⟩
  · refine (read_update (fun lane => lane.holder.map Prod.fst) hs'.symm).trans ?_
    rw [hholder']
    refine Function.update_eq_iff.mpr ⟨?_, fun _ _ => rfl⟩
    rw [held, hholder]
    rfl
  · have hlane : s'.lanes i = l := by
      rw [← hs']
      exact Function.update_self _ _ _
    rw [left, left, hlane, Lane.todo, Lane.todo, hholder]
    rfl
  · refine (read_update Lane.returned hs'.symm).trans ?_
    rw [hreturned]
    exact Function.update_eq_self _ s.returned

/-- The holder of a mutex that has nothing left releases it. -/
theorem held_unlock {i : Fin SHARD_COUNT}
    (hs : s.step route (.unlock i : Turn C) = some s') :
    ∃ k, s.held i = some k ∧ s'.held = Function.update s.held i none
      ∧ s'.returned = Function.update s.returned i (s.returned i ++ [k]) := by
  obtain ⟨l, hl, hs'⟩ := Option.map_eq_some_iff.mp hs
  obtain ⟨k, hholder, hholder', hreturned⟩ := Lane.unlock_holder hl
  refine ⟨k, by rw [held, hholder]; rfl, ?_, ?_⟩
  · exact (read_update (fun lane => lane.holder.map Prod.fst) hs'.symm).trans
      (by rw [hholder']; rfl)
  · exact (read_update Lane.returned hs'.symm).trans (by rw [hreturned]; rfl)

/-- A traversal changes no shard. -/
theorem lanes_visit {v : ℕ} (hs : s.step route (.visit v : Turn C) = some s') :
    s'.lanes = s.lanes := by
  obtain ⟨visitor, -, rfl⟩ := Option.map_eq_some_iff.mp hs
  rfl

/-- No holder ever has more left than a call with a new key has to do. -/
theorem left_le {n : ℕ} (hn : ∀ (shard : σ) (call : C), (ShardKind.accesses shard call).length ≤ n)
    {turn : Turn C} (h : ∀ i, s.left i ≤ n) (hs : s.step route turn = some s') :
    ∀ i, s'.left i ≤ n := by
  have hlane : ∀ {i : Fin SHARD_COUNT} {f : Lane σ T K → Option (Lane σ T K)},
      (∀ l, f (s.lanes i) = some l → l.todo.length ≤ n) →
      s.on_lane i f = some s' → ∀ j, s'.left j ≤ n := by
    intro i f hf hon
    obtain ⟨l, hl, rfl⟩ := Option.map_eq_some_iff.mp hon
    exact (Function.forall_update_iff s.lanes (fun _ lane => lane.todo.length ≤ n)).mpr
      ⟨hf l hl, fun j _ => h j⟩
  cases turn with
  | lock call =>
    refine hlane (fun l hl => ?_) hs
    obtain ⟨-, -, htodo | htodo, -⟩ := Lane.lock_holder hl
    · rw [htodo]
      exact Nat.zero_le n
    · rw [htodo]
      exact hn _ _
  | access i =>
    refine hlane (fun l hl => ?_) hs
    obtain ⟨k, a, hholder, -, -⟩ := Lane.access_holder hl
    have hleft := h i
    rw [left, Lane.todo, hholder] at hleft
    exact (Nat.le_succ _).trans hleft
  | unlock i =>
    refine hlane (fun l hl => ?_) hs
    obtain ⟨k, -, hholder, -⟩ := Lane.unlock_holder hl
    rw [Lane.todo, hholder]
    exact Nat.zero_le n
  | visit v =>
    intro i
    rw [left, lanes_visit hs]
    exact h i

end Steps

end Traversals

/-- A registration with a new key makes six accesses, if it starts a chunk. -/
theorem Shard.accesses_length_le (self : Shard) (profile : ProfileMeta) :
    (self.accesses profile).length ≤ 6 := by
  unfold accesses
  dsimp only
  split_ifs <;> simp

theorem ScalarShard.accesses_length_le (self : ScalarShard) (request : Request) :
    (self.accesses request).length ≤ 6 := by
  unfold accesses
  dsimp only
  split_ifs <;> simp

/-! ## The mutexes of a process -/

/-- The mutex of a registration: that of the shard its key is routed to. -/
def Registration.place (host : Host) (self : Registration) : Place :=
  match self.target with
  | .inl profile => .timing (host.timing_route profile.key)
  | .inr request => .scalar (host.scalar_route request.key)

/-- The mutex of a section. -/
def Access.place (host : Host) : Access → Place
  | .registration op => op.place host
  | .record_state _ _ _ => .states

/-- The key a section looks up, if it looks one up. -/
def Access.key : Access → Option StoreKey
  | .registration op => some op.key
  | .record_state _ _ _ => none

/-- The mutex a thread holds, and for which key. -/
def ThreadPc.at_place : ThreadPc → Option (Place × Option StoreKey)
  | .inside access place _ => some (place, access.key)
  | .outside | .waiting _ | .updating _ => none

theorem Registration.key_timing {op : Registration} {profile : ProfileMeta}
    (h : op.target = .inl profile) : op.key = .timing profile.key := by
  cases op with
  | register _ _ | register_resource _ _ | register_profile _ =>
    obtain rfl := Sum.inl.inj h
    rfl
  | scalar_register _ _ _ | scalar_register_resource _ _ _ => exact (Sum.inr_ne_inl h).elim

theorem Registration.key_scalar {op : Registration} {request : ScalarShard.Request}
    (h : op.target = .inr request) : op.key = .scalar request.key := by
  cases op with
  | register _ _ | register_resource _ _ | register_profile _ => exact (Sum.inl_ne_inr h).elim
  | scalar_register _ _ _ | scalar_register_resource _ _ _ =>
    obtain rfl := Sum.inr.inj h
    rfl

/-- A thread in a call, or about to begin one, has little left to do. -/
def Thread.Short (self : Thread) : Prop :=
  match self.pc with
  | .outside => self.todo.length ≤ 2
  | .waiting _ => self.todo.length ≤ 1
  | .inside _ _ _ => self.todo.length ≤ 1
  | .updating ops => self.todo = [] ∧ ops.length ≤ 6

/-- No public constructor has more than two sections. -/
theorem PublicCall.accesses_length_le (call : PublicCall) : call.accesses.length ≤ 2 := by
  unfold accesses
  split_ifs
  · cases call <;> simp [sections]
  · exact Nat.zero_le 2

/-- No update makes more than six operations. -/
theorem UpdateCall.ops_length_le (call : UpdateCall) : call.ops.length ≤ 6 := by
  cases call with
  | timing call =>
    rw [ops, List.length_map]
    cases call with
    | record metric elapsed success =>
      simp only [HandleCall.ops, Metric.record]
      split_ifs <;> simp
    | increment metric => simp [HandleCall.ops, Metric.increment]
    | add counter value => simp [HandleCall.ops, CounterMetric.add]
    | inc counter => simp [HandleCall.ops, CounterMetric.inc, CounterMetric.add]
  | scalar call =>
    cases call <;> simp [ops, ScalarCall.ops, CounterMetric.inc, CounterMetric.add,
      GaugeMetric.inc, GaugeMetric.dec, GaugeMetric.add]

namespace Process

/-- What a mutex is held for, if it is held. -/
def held (self : Process) : Place → Option (Option StoreKey)
  | .timing shard => (self.timing.held shard).map (fun k => some (.timing k))
  | .scalar shard => (self.scalars.held shard).map (fun k => some (.scalar k))
  | .states => self.states_holder.map (fun _ => none)

/-- The keys of the calls that a shard has seen return. -/
def finished (self : Process) : Place → List StoreKey
  | .timing shard => (self.timing.returned shard).map .timing
  | .scalar shard => (self.scalars.returned shard).map .scalar
  | .states => []

/-- Mutexes are exclusive, threads are where the shards say they are, and a shard has seen the
calls return that threads have a handle from. -/
structure Owned (host : Host) (p : Process) : Prop where
  exclusive : Exclusive (fun t => (p.threads t).pc.at_place) p.held
  /-- A thread inside a section holds the section's mutex, and its section is in the order. -/
  placed : ∀ t access place result, (p.threads t).pc = .inside access place result →
    place = access.place host ∧ ⟨t, access, result⟩ ∈ p.order
      ∧ ∀ handle, result = some handle → ∃ op, access = .registration op
  returned : ∀ handle ∈ p.returned, ∃ op, (op, handle) ∈ p.order.filterMap issued_by
    ∧ op.key ∈ p.finished (op.place host)
  short : ∀ t, (p.threads t).Short
  timing_left : ∀ i, p.timing.left i ≤ 6
  scalars_left : ∀ i, p.scalars.left i ≤ 6

theorem owned_new (host : Host) : (new : Process).Owned host where
  exclusive := by
    have hheld : (new : Process).held = fun _ => none := by
      funext place
      cases place <;> rfl
    rw [hheld]
    exact exclusive_none
  placed := fun _ _ _ _ h => ThreadPc.noConfusion h
  returned := fun _ h => absurd h List.not_mem_nil
  short := fun _ => Nat.zero_le 2
  timing_left := fun _ => Nat.zero_le 6
  scalars_left := fun _ => Nat.zero_le 6

section Moves

variable {host : Host} {p q : Process}

/-- The mutexes of a process when a timing shard has changed. -/
theorem held_timing {i : Fin SHARD_COUNT} {k : Option TimingKey}
    (htiming : q.timing.held = Function.update p.timing.held i k)
    (hscalars : q.scalars = p.scalars) (hstates : q.states_holder = p.states_holder) :
    q.held = Function.update p.held (.timing i) (k.map (fun k => some (.timing k))) := by
  funext place
  cases place with
  | timing j =>
    by_cases hj : j = i
    · subst hj
      simp only [held, htiming, Function.update_self]
    · have hne : Place.timing j ≠ .timing i := fun h => hj (Place.timing.inj h)
      simp only [held, htiming, Function.update_of_ne hj, Function.update_of_ne hne]
  | scalar j =>
    simp only [held, hscalars, Function.update_of_ne (show Place.scalar j ≠ .timing i by simp)]
  | states =>
    simp only [held, hstates, Function.update_of_ne (show Place.states ≠ .timing i by simp)]

/-- The same for a scalar shard. -/
theorem held_scalar {i : Fin SHARD_COUNT} {k : Option ScalarKey}
    (hscalars : q.scalars.held = Function.update p.scalars.held i k)
    (htiming : q.timing = p.timing) (hstates : q.states_holder = p.states_holder) :
    q.held = Function.update p.held (.scalar i) (k.map (fun k => some (.scalar k))) := by
  funext place
  cases place with
  | scalar j =>
    by_cases hj : j = i
    · subst hj
      simp only [held, hscalars, Function.update_self]
    · have hne : Place.scalar j ≠ .scalar i := fun h => hj (Place.scalar.inj h)
      simp only [held, hscalars, Function.update_of_ne hj, Function.update_of_ne hne]
  | timing j =>
    simp only [held, htiming, Function.update_of_ne (show Place.timing j ≠ .scalar i by simp)]
  | states =>
    simp only [held, hstates, Function.update_of_ne (show Place.states ≠ .scalar i by simp)]

/-- And for the states. -/
theorem held_states (htiming : q.timing = p.timing) (hscalars : q.scalars = p.scalars) :
    q.held = Function.update p.held .states (q.states_holder.map (fun _ => none)) := by
  funext place
  cases place with
  | timing j =>
    simp only [held, htiming, Function.update_of_ne (show Place.timing j ≠ .states by simp)]
  | scalar j =>
    simp only [held, hscalars, Function.update_of_ne (show Place.scalar j ≠ .states by simp)]
  | states => simp only [held, Function.update_self]

/-- A move of one thread. -/
theorem Owned.thread (h : p.Owned host) {t : ℕ} {thread : Thread}
    {held' : Place → Option (Option StoreKey)}
    (hthreads : q.threads = Function.update p.threads t thread) (horder : p.order ⊆ q.order)
    (hheld : q.held = held')
    (hexclusive : Exclusive (Function.update (fun u => (p.threads u).pc.at_place) t
      thread.pc.at_place) held')
    (hplaced : ∀ access place result, thread.pc = .inside access place result →
      place = access.place host ∧ ⟨t, access, result⟩ ∈ q.order
        ∧ ∀ handle, result = some handle → ∃ op, access = .registration op)
    (hreturned : ∀ handle ∈ q.returned, handle ∉ p.returned → ∃ op,
      (op, handle) ∈ q.order.filterMap issued_by ∧ op.key ∈ q.finished (op.place host))
    (hfinished : ∀ place, p.finished place ⊆ q.finished place) (hshort : thread.Short)
    (htiming : ∀ i, q.timing.left i ≤ 6) (hscalars : ∀ i, q.scalars.left i ≤ 6) :
    q.Owned host where
  exclusive := by
    rw [hthreads, show (fun u => (Function.update p.threads t thread u).pc.at_place)
      = Function.update (fun u => (p.threads u).pc.at_place) t thread.pc.at_place from
        funext (Function.apply_update (fun _ (thread : Thread) => thread.pc.at_place) _ _ _), hheld]
    exact hexclusive
  placed := by
    intro u access place result hu
    by_cases hut : u = t
    · subst hut
      rw [hthreads, Function.update_self] at hu
      exact hplaced access place result hu
    · rw [hthreads, Function.update_of_ne hut] at hu
      obtain ⟨hplace, hmem, hop⟩ := h.placed u access place result hu
      exact ⟨hplace, horder hmem, hop⟩
  returned := by
    intro handle hhandle
    by_cases hold : handle ∈ p.returned
    · obtain ⟨op, hop, hkey⟩ := h.returned handle hold
      obtain ⟨e, he, heq⟩ := List.mem_filterMap.mp hop
      exact ⟨op, List.mem_filterMap.mpr ⟨e, horder he, heq⟩, hfinished _ hkey⟩
    · exact hreturned handle hhandle hold
  short := by
    rw [hthreads]
    exact (Function.forall_update_iff p.threads (fun _ thread => thread.Short)).mpr
      ⟨hshort, fun u _ => h.short u⟩
  timing_left := htiming
  scalars_left := hscalars

/-- A move of no thread. -/
theorem Owned.shards (h : p.Owned host) (hthreads : q.threads = p.threads)
    (horder : q.order = p.order) (hreturned : q.returned = p.returned) (hheld : q.held = p.held)
    (hfinished : q.finished = p.finished) (htiming : ∀ i, q.timing.left i ≤ 6)
    (hscalars : ∀ i, q.scalars.left i ≤ 6) : q.Owned host where
  exclusive := by
    rw [hthreads, hheld]
    exact h.exclusive
  placed := by
    rw [hthreads, horder]
    exact h.placed
  returned := by
    rw [hreturned, horder, hfinished]
    exact h.returned
  short := by
    rw [hthreads]
    exact h.short
  timing_left := htiming
  scalars_left := hscalars

/-- The calls that shards have seen return. -/
theorem finished_congr (htiming : q.timing.returned = p.timing.returned)
    (hscalars : q.scalars.returned = p.scalars.returned) : q.finished = p.finished := by
  funext place
  cases place <;> simp only [finished, htiming, hscalars]

theorem finished_subset (htiming : q.timing.returned = p.timing.returned)
    (hscalars : q.scalars.returned = p.scalars.returned) (place : Place) :
    p.finished place ⊆ q.finished place := by
  rw [finished_congr htiming hscalars]
  exact List.Subset.refl _

/-- What a thread has got when it returns. -/
theorem returned_unlocked {t : ℕ} {result : Option Handle} {handle : Handle}
    (h : handle ∈ (p.unlocked t result).returned) (hnew : handle ∉ p.returned) :
    result = some handle := by
  have happend : (p.unlocked t result).returned = p.returned ++ result.toList := by
    rw [returned, unlocked, List.filterMap_append]
    cases result <;> rfl
  rw [happend] at h
  exact Option.mem_toList.mp ((List.mem_append.mp h).resolve_left hnew)

/-- Every move keeps it. -/
theorem Owned.happens {move : Move} (h : p.Owned host) (hmove : p.Happens host move q) :
    q.Owned host := by
  have hsame : ∀ handle ∈ p.returned, handle ∉ p.returned → ∃ op,
      (op, handle) ∈ q.order.filterMap issued_by ∧ op.key ∈ q.finished (op.place host) :=
    fun _ hmem hnot => absurd hmem hnot
  -- a thread that is inside when it unlocks returns from the section it holds the mutex for
  have hreturns : ∀ {t : ℕ} {access : Access} {place : Place} {result : Option Handle}
      {k : StoreKey} {r : Process}, (p.threads t).pc = .inside access place result →
      p.held place = some (some k) → r.order = p.order → k ∈ r.finished place →
      ∀ handle ∈ (p.unlocked t result).returned, handle ∉ p.returned → ∃ op,
        (op, handle) ∈ r.order.filterMap issued_by ∧ op.key ∈ r.finished (op.place host) := by
    intro t access place result k r hinside hheld horder hk handle hmem hnew
    obtain rfl := returned_unlocked hmem hnew
    obtain ⟨hplace, he, hop⟩ := h.placed t access place _ hinside
    obtain ⟨op, rfl⟩ := hop handle rfl
    have hown := (h.exclusive.held_iff place (some op.key)).mpr ⟨t, by rw [hinside]; rfl⟩
    rw [hheld] at hown
    obtain rfl : k = op.key := Option.some.inj (Option.some.inj hown)
    refine ⟨op, List.mem_filterMap.mpr ⟨_, horder ▸ he, rfl⟩, ?_⟩
    rw [show op.place host = place from hplace.symm]
    exact hk
  have hshort := h.short
  cases hmove with
  | call t call hidle =>
    exact h.thread rfl (List.Subset.refl _) rfl (h.exclusive.stay (by rw [hidle]))
      (fun _ _ _ hpc => ThreadPc.noConfusion hpc) hsame (fun _ => List.Subset.refl _)
      call.accesses_length_le h.timing_left h.scalars_left
  | enter t access todo hidle =>
    refine h.thread (show _ = Function.update p.threads t ⟨.waiting access, todo⟩ from rfl)
      (List.Subset.refl _)
      rfl (h.exclusive.stay (by rw [hidle]; rfl)) (fun _ _ _ hpc => ThreadPc.noConfusion hpc) ?_
      (fun _ => List.Subset.refl _) ?_ h.timing_left h.scalars_left
    · -- an invocation is no response
      intro handle hhandle hnew
      refine absurd ?_ hnew
      simpa only [Process.returned, List.filterMap_append, List.filterMap_cons, List.filterMap_nil,
        List.append_nil] using hhandle
    · have := hshort t
      rw [Thread.Short, hidle] at this
      exact Nat.le_of_succ_le_succ this
  | lock_timing t op profile timing hwaiting htarget hstep =>
    obtain ⟨hfree, hheld, hreturned⟩ := Traversals.held_lock hstep
    refine h.thread rfl (List.subset_append_left _ _) (held_timing hheld rfl rfl) ?_ ?_ hsame
      (finished_subset hreturned rfl) ?_
      (Traversals.left_le Shard.accesses_length_le h.timing_left hstep) h.scalars_left
    · have hacquire := h.exclusive.acquire (t := t)
        (.timing (host.timing_route profile.key)) (some op.key)
        (by rw [hwaiting]; rfl) (by rw [held]; exact Option.map_eq_none_iff.mpr hfree)
      rw [Registration.key_timing htarget] at hacquire
      rw [ThreadPc.at_place, Access.key, Registration.key_timing htarget]
      exact hacquire
    · intro access place result heq
      obtain ⟨rfl, rfl, rfl⟩ := ThreadPc.inside.inj heq
      refine ⟨?_, List.mem_append_right _ (List.mem_singleton_self _), fun _ _ => ⟨op, rfl⟩⟩
      rw [Access.place, Registration.place, htarget]
    · have := hshort t
      rw [Thread.Short, hwaiting] at this
      exact this
  | lock_scalar t op request scalars hwaiting htarget hstep =>
    obtain ⟨hfree, hheld, hreturned⟩ := Traversals.held_lock hstep
    refine h.thread rfl (List.subset_append_left _ _) (held_scalar hheld rfl rfl) ?_ ?_ hsame
      (finished_subset rfl hreturned) ?_ h.timing_left
      (Traversals.left_le ScalarShard.accesses_length_le h.scalars_left hstep)
    · have hacquire := h.exclusive.acquire (t := t)
        (.scalar (host.scalar_route request.key)) (some op.key)
        (by rw [hwaiting]; rfl) (by rw [held]; exact Option.map_eq_none_iff.mpr hfree)
      rw [Registration.key_scalar htarget] at hacquire
      rw [ThreadPc.at_place, Access.key, Registration.key_scalar htarget]
      exact hacquire
    · intro access place result heq
      obtain ⟨rfl, rfl, rfl⟩ := ThreadPc.inside.inj heq
      refine ⟨?_, List.mem_append_right _ (List.mem_singleton_self _), fun _ _ => ⟨op, rfl⟩⟩
      rw [Access.place, Registration.place, htarget]
    · have := hshort t
      rw [Thread.Short, hwaiting] at this
      exact this
  | lock_states t name key value hwaiting hfree =>
    refine h.thread rfl (List.subset_append_left _ _) (held_states (p := p) rfl rfl) ?_ ?_ hsame
      (fun _ => List.Subset.refl _) ?_ h.timing_left h.scalars_left
    · exact h.exclusive.acquire (t := t) .states none (by rw [hwaiting]; rfl)
        (by rw [held]; exact Option.map_eq_none_iff.mpr hfree)
    · intro access place result heq
      obtain ⟨rfl, rfl, rfl⟩ := ThreadPc.inside.inj heq
      exact ⟨rfl, List.mem_append_right _ (List.mem_singleton_self _), fun _ hr => by cases hr⟩
    · have := hshort t
      rw [Thread.Short, hwaiting] at this
      exact this
  | access_timing t access shard result timing hinside hstep =>
    obtain ⟨hheld, -, hreturned⟩ := Traversals.held_access hstep
    refine h.shards rfl rfl rfl ?_ (finished_congr hreturned rfl)
      (Traversals.left_le Shard.accesses_length_le h.timing_left hstep) h.scalars_left
    funext place
    cases place <;> simp only [held, hheld]
  | access_scalar t access shard result scalars hinside hstep =>
    obtain ⟨hheld, -, hreturned⟩ := Traversals.held_access hstep
    refine h.shards rfl rfl rfl ?_ (finished_congr rfl hreturned) h.timing_left
      (Traversals.left_le ScalarShard.accesses_length_le h.scalars_left hstep)
    funext place
    cases place <;> simp only [held, hheld]
  | unlock_timing t access shard result timing hinside hstep =>
    obtain ⟨k, hk, hheld, hreturned⟩ := Traversals.held_unlock hstep
    refine h.thread rfl (List.Subset.refl _) (held_timing hheld rfl rfl) ?_
      (fun _ _ _ hpc => ThreadPc.noConfusion hpc)
      (hreturns hinside (by rw [held, hk]; rfl) rfl ?_) (fun place => ?_) ?_
      (Traversals.left_le Shard.accesses_length_le h.timing_left hstep) h.scalars_left
    · exact h.exclusive.release (x := .timing shard) (by rw [hinside]; rfl)
    · simp [finished, hreturned]
    · cases place with
      | timing i =>
        simp only [finished, hreturned]
        refine List.map_subset _ ?_
        exact (Function.forall_update_iff p.timing.returned (fun j keys =>
          p.timing.returned j ⊆ keys)).mpr
            ⟨List.subset_append_left _ _, fun _ _ => List.Subset.refl _⟩ i
      | scalar i => exact List.Subset.refl _
      | states => exact List.Subset.refl _
    · have := hshort t
      rw [Thread.Short, hinside] at this
      exact this.trans (by decide)
  | unlock_scalar t access shard result scalars hinside hstep =>
    obtain ⟨k, hk, hheld, hreturned⟩ := Traversals.held_unlock hstep
    refine h.thread rfl (List.Subset.refl _) (held_scalar hheld rfl rfl) ?_
      (fun _ _ _ hpc => ThreadPc.noConfusion hpc)
      (hreturns hinside (by rw [held, hk]; rfl) rfl ?_) (fun place => ?_) ?_
      h.timing_left (Traversals.left_le ScalarShard.accesses_length_le h.scalars_left hstep)
    · exact h.exclusive.release (x := .scalar shard) (by rw [hinside]; rfl)
    · simp [finished, hreturned]
    · cases place with
      | scalar i =>
        simp only [finished, hreturned]
        refine List.map_subset _ ?_
        exact (Function.forall_update_iff p.scalars.returned (fun j keys =>
          p.scalars.returned j ⊆ keys)).mpr
            ⟨List.subset_append_left _ _, fun _ _ => List.Subset.refl _⟩ i
      | timing i => exact List.Subset.refl _
      | states => exact List.Subset.refl _
    · have := hshort t
      rw [Thread.Short, hinside] at this
      exact this.trans (by decide)
  | unlock_states t access result hinside =>
    obtain ⟨hplace, -, hop⟩ := h.placed t access .states result hinside
    refine h.thread rfl (List.Subset.refl _) (held_states (p := p) rfl rfl) ?_
      (fun _ _ _ hpc => ThreadPc.noConfusion hpc) ?_ (fun _ => List.Subset.refl _) ?_
      h.timing_left h.scalars_left
    · exact h.exclusive.release (x := .states) (by rw [hinside]; rfl)
    · -- a record returns nothing
      intro handle hhandle hnew
      obtain ⟨op, rfl⟩ := hop handle (returned_unlocked hhandle hnew)
      rw [Access.place, Registration.place] at hplace
      split at hplace <;> cases hplace
    · have := hshort t
      rw [Thread.Short, hinside] at this
      exact this.trans (by decide)
  | update t call hidle hmem =>
    exact h.thread rfl (List.Subset.refl _) rfl (h.exclusive.stay (by rw [hidle]; rfl))
      (fun _ _ _ hpc => ThreadPc.noConfusion hpc) hsame (fun _ => List.Subset.refl _)
      ⟨rfl, call.ops_length_le⟩ h.timing_left h.scalars_left
  | apply_last t hupdating =>
    refine h.thread rfl (List.Subset.refl _) rfl (h.exclusive.stay (by rw [hupdating]; rfl))
      (fun _ _ _ hpc => ThreadPc.noConfusion hpc) hsame (fun _ => List.Subset.refl _) ?_
      h.timing_left h.scalars_left
    have := hshort t
    rw [Thread.Short, hupdating] at this
    exact (List.length_eq_zero_iff.mpr this.1).trans_le (Nat.zero_le 2)
  | apply t op ops hupdating =>
    refine h.thread rfl (List.Subset.refl _) rfl (h.exclusive.stay (by rw [hupdating]; rfl))
      (fun _ _ _ hpc => ThreadPc.noConfusion hpc) hsame (fun _ => List.Subset.refl _) ?_
      h.timing_left h.scalars_left
    have := hshort t
    rw [Thread.Short, hupdating] at this
    exact ⟨this.1, (Nat.le_succ _).trans this.2⟩
  | visit_timing v order timing hstep =>
    have hlanes := Traversals.lanes_visit hstep
    refine h.shards rfl rfl rfl ?_ (finished_congr (funext fun i => by
        rw [Traversals.returned, Traversals.returned, hlanes]) rfl)
      (Traversals.left_le Shard.accesses_length_le h.timing_left hstep) h.scalars_left
    funext place
    cases place <;> simp only [held, Traversals.held, hlanes]
  | visit_scalars v order scalars hdone hstep =>
    have hlanes := Traversals.lanes_visit hstep
    refine h.shards rfl rfl rfl ?_ (finished_congr rfl (funext fun i => by
        rw [Traversals.returned, Traversals.returned, hlanes])) h.timing_left
      (Traversals.left_le ScalarShard.accesses_length_le h.scalars_left hstep)
    funext place
    cases place <;> simp only [held, Traversals.held, hlanes]
  | built v order hdone hdone' hnew hfree =>
    exact h.shards rfl rfl rfl rfl rfl h.timing_left h.scalars_left

/-- Every state of a run is owned. -/
theorem Owned.run {schedule : List Move} (h : p.Owned host)
    (hs : p.run host schedule = some q) : q.Owned host := by
  induction schedule generalizing p with
  | nil =>
    obtain rfl : p = q := Option.some.inj hs
    exact h
  | cons move schedule ih =>
    rw [Process.run, List.foldlM_cons] at hs
    obtain ⟨r, hr, hrest⟩ := Option.bind_eq_some_iff.mp hs
    exact ih (h.happens (step_happens hr)) hrest

end Moves

end Process

end BrzMetrics
