/-
Traversals while registrations go on.

A schedule, of any length, mixes the steps of any number of traversals (`Visitor`)
with those of registrations (`Writers`), in any order in which the writers of a
shard take turns with its mutex. The state records per shard the order in which
calls with new keys took the mutex and the keys of the calls that have returned.

`Traversals.Inv` puts the invariants of shards and traversals together. It holds
along every schedule, and gives that every traversal visits the beginning of each
shard's registration order, with all calls in it that had returned when the
shard's index was loaded (`Traversals.Sound`).
-/
import BrzMetrics.Visitor
import BrzMetrics.Writers

set_option autoImplicit false

namespace BrzMetrics

open ChunkLog KeyedStore

/-! ## Schedules -/

/-- The shards of a registry and any number of traversals. -/
structure Traversals (σ T K : Type) where
  lanes : Fin SHARD_COUNT → Lane σ T K
  visitors : ℕ → Visitor T

/-- Whose turn it is: a call takes the mutex of its shard, the holder of a shard's mutex makes
its next access or returns, a traversal takes its next step. -/
inductive Turn (C : Type) where
  | lock (call : C)
  | access (shard : Fin SHARD_COUNT)
  | unlock (shard : Fin SHARD_COUNT)
  | visit (visitor : ℕ)

namespace Traversals

variable {σ T C K : Type} [ShardKind σ T C K]

/-- A new registry, with no traversal begun. -/
def new : Traversals σ T K := { lanes := Lane.new, visitors := fun _ => Visitor.new }

/-- A step of one shard. -/
def on_lane (i : Fin SHARD_COUNT) (f : Lane σ T K → Option (Lane σ T K))
    (self : Traversals σ T K) : Option (Traversals σ T K) :=
  (f (self.lanes i)).map (fun lane => { self with lanes := Function.update self.lanes i lane })

/-- One turn. `none`: it cannot be taken, the mutex is held or there is nothing left to do. -/
def step [DecidableEq K] (route : K → Fin SHARD_COUNT) (self : Traversals σ T K) :
    Turn C → Option (Traversals σ T K)
  | .lock call => self.on_lane (route (ShardKind.call_key σ call)) (Lane.lock call)
  | .access i => self.on_lane i Lane.access
  | .unlock i => self.on_lane i Lane.unlock
  | .visit v =>
    ((self.visitors v).step (fun i => ShardKind.store (self.lanes i).shard)).map
      (fun visitor => { self with visitors := Function.update self.visitors v visitor })

/-- A schedule, from some state on. -/
def run [DecidableEq K] (route : K → Fin SHARD_COUNT) (self : Traversals σ T K)
    (schedule : List (Turn C)) : Option (Traversals σ T K) :=
  schedule.foldlM (step route) self

/-- What holds after every turn. -/
structure Inv (due : ℕ → Fin SHARD_COUNT → ℕ) (ps : Fin SHARD_COUNT → Progress)
    (s : Traversals σ T K) : Prop where
  lanes : ∀ i, (s.lanes i).Inv (ps i)
  visitors : ∀ v, (s.visitors v).Inv (due v) (fun i => (s.lanes i).order) ps

theorem inv_new : (new : Traversals σ T K).Inv (fun _ _ => 0) (fun _ => settled CHUNK_SIZE 0) where
  lanes := Lane.inv_new
  visitors := fun _ => Visitor.inv_new (fun _ => Nat.zero_le _)

section Steps

variable {due : ℕ → Fin SHARD_COUNT → ℕ} {ps : Fin SHARD_COUNT → Progress}
  {s s' : Traversals σ T K}

/-- A step of one shard disturbs nobody. -/
theorem Inv.on_lane (h : s.Inv due ps) {i : Fin SHARD_COUNT}
    {f : Lane σ T K → Option (Lane σ T K)}
    (hf : ∀ l, f (s.lanes i) = some l →
      ∃ p, l.Inv p ∧ (ps i).Le p ∧ (s.lanes i).order <+: l.order)
    (hs : s.on_lane i f = some s') :
    ∃ ps', s'.Inv due ps' ∧ ∀ j, (s.lanes j).order <+: (s'.lanes j).order := by
  obtain ⟨l, hl, rfl⟩ := Option.map_eq_some_iff.mp hs
  obtain ⟨p, hinv, hle, horder⟩ := hf l hl
  have horders : ∀ j, (s.lanes j).order <+: (Function.update s.lanes i l j).order :=
    (Function.forall_update_iff s.lanes (fun j l => (s.lanes j).order <+: l.order)).mpr
      ⟨horder, fun _ _ => List.prefix_rfl⟩
  refine ⟨Function.update ps i p, ⟨forall_update_both h.lanes hinv, fun v => ?_⟩, horders⟩
  -- a traversal only relies on what the shards have published, and they have published no less
  refine (h.visitors v).mono ?_ horders
  exact (Function.forall_update_iff ps (fun j q => (ps j).Le q)).mpr
    ⟨hle, fun _ _ => Progress.Le.refl _⟩

theorem Inv.step [DecidableEq K] {route : K → Fin SHARD_COUNT} (h : s.Inv due ps) {turn : Turn C}
    (hs : s.step route turn = some s') :
    ∃ ps', s'.Inv due ps' ∧ ∀ j, (s.lanes j).order <+: (s'.lanes j).order := by
  cases turn with
  | lock call =>
    refine h.on_lane (fun l hl => ?_) hs
    exact ⟨_, (h.lanes _).lock hl, Progress.Le.refl _, Lane.lock_order hl ▸ prefix_enroll _ _ _⟩
  | access i =>
    refine h.on_lane (fun l hl => ?_) hs
    obtain ⟨p, hinv, hle⟩ := (h.lanes i).access hl
    exact ⟨p, hinv, hle, Lane.access_order hl ▸ List.prefix_rfl⟩
  | unlock i =>
    refine h.on_lane (fun l hl => ?_) hs
    exact ⟨_, (h.lanes i).unlock hl, Progress.Le.refl _, Lane.unlock_order hl ▸ List.prefix_rfl⟩
  | visit v =>
    obtain ⟨visitor, hvisitor, rfl⟩ := Option.map_eq_some_iff.mp hs
    have hvisit := (h.visitors v).step (fun i => (h.lanes i).shape) (fun i => (h.lanes i).good)
      hvisitor
    refine ⟨ps, ⟨h.lanes, ?_⟩, fun _ => List.prefix_rfl⟩
    -- the other traversals have not moved
    exact (Function.forall_update_iff s.visitors (fun w visitor =>
      visitor.Inv (due w) (fun i => (s.lanes i).order) ps)).mpr ⟨hvisit, fun w _ => h.visitors w⟩

/-- The invariant holds along every schedule, and registration orders only grow. -/
theorem Inv.run [DecidableEq K] {route : K → Fin SHARD_COUNT} {schedule : List (Turn C)}
    (h : s.Inv due ps) (hs : s.run route schedule = some s') :
    ∃ ps', s'.Inv due ps' ∧ ∀ j, (s.lanes j).order <+: (s'.lanes j).order := by
  induction schedule generalizing s ps with
  | nil =>
    obtain rfl : s = s' := Option.some.inj hs
    exact ⟨ps, h, fun _ => List.prefix_rfl⟩
  | cons turn schedule ih =>
    rw [Traversals.run, List.foldlM_cons] at hs
    obtain ⟨t, ht, hrest⟩ := Option.bind_eq_some_iff.mp hs
    obtain ⟨ps₁, h₁, hgrow₁⟩ := h.step ht
    obtain ⟨ps', h', hgrow'⟩ := ih h₁ hrest
    exact ⟨ps', h', fun j => (hgrow₁ j).trans (hgrow' j)⟩

/-- A traversal that is due more from now on. -/
theorem Inv.raise (h : s.Inv due ps) (v : ℕ) {more : Fin SHARD_COUNT → ℕ}
    (hmore : ∀ i, more i ≤ (ps i).visible CHUNK_SIZE)
    (hpending : ∀ i, more i = due v i ∨ (s.visitors v).Pending i) :
    s.Inv (Function.update due v more) ps where
  lanes := h.lanes
  visitors := (Function.forall_update_iff due (fun w due =>
    (s.visitors w).Inv due (fun i => (s.lanes i).order) ps)).mpr
      ⟨(h.visitors v).raise hmore hpending, fun w _ => h.visitors w⟩

end Steps

/-! ## Registration order -/

/-- The key of a call that takes the mutex of shard `i`. -/
def locks (σ : Type) {T C K : Type} [ShardKind σ T C K] (route : K → Fin SHARD_COUNT)
    (i : Fin SHARD_COUNT) : Turn C → Option K
  | .lock call =>
    if route (ShardKind.call_key σ call) = i then some (ShardKind.call_key σ call) else none
  | .access _ => none
  | .unlock _ => none
  | .visit _ => none

/-- The keys registered with shard `i`, in the order in which their first calls took the mutex. -/
def registration_order (σ : Type) {T C K : Type} [ShardKind σ T C K] [DecidableEq K]
    (route : K → Fin SHARD_COUNT) (i : Fin SHARD_COUNT) (schedule : List (Turn C)) : List K :=
  (schedule.filterMap (locks σ route i)).foldl (enroll id) []

section Order

variable [DecidableEq K] {route : K → Fin SHARD_COUNT} {s s' : Traversals σ T K}

omit [DecidableEq K] in
/-- A step of one shard leaves the other orders alone. -/
theorem on_lane_order {j : Fin SHARD_COUNT} {f : Lane σ T K → Option (Lane σ T K)}
    {order : List T} (hf : ∀ l, f (s.lanes j) = some l → l.order = order)
    (hs : s.on_lane j f = some s') (i : Fin SHARD_COUNT) :
    (s'.lanes i).order = if j = i then order else (s.lanes i).order := by
  obtain ⟨l, hl, rfl⟩ := Option.map_eq_some_iff.mp hs
  split_ifs with hj
  · subst hj
    dsimp only
    rw [Function.update_self, hf l hl]
  · dsimp only
    rw [Function.update_of_ne (Ne.symm hj)]

/-- A call adds its key to the order when it takes the mutex; no other turn does. -/
theorem step_order {turn : Turn C} (hs : s.step route turn = some s') (i : Fin SHARD_COUNT) :
    (s'.lanes i).order.map (ShardKind.key σ)
      = (locks σ route i turn).toList.foldl (enroll id)
          ((s.lanes i).order.map (ShardKind.key σ)) := by
  cases turn with
  | lock call =>
    -- the call is next to register, whether its key is new or not
    rw [on_lane_order (fun _ hl => Lane.lock_order hl) hs, locks]
    split_ifs with hi
    · subst hi
      rw [map_key_enroll, ShardKind.key_call_entry]
      rfl
    · rfl
  | access j =>
    rw [on_lane_order (fun _ hl => Lane.access_order hl) hs]
    split_ifs with hj
    · rw [hj]
      rfl
    · rfl
  | unlock j =>
    rw [on_lane_order (fun _ hl => Lane.unlock_order hl) hs]
    split_ifs with hj
    · rw [hj]
      rfl
    · rfl
  | visit v =>
    obtain ⟨visitor, -, rfl⟩ := Option.map_eq_some_iff.mp hs
    rfl

/-- The order a shard records is the order in which calls took its mutex. -/
theorem run_order {schedule : List (Turn C)} (hs : new.run route schedule = some s)
    (i : Fin SHARD_COUNT) :
    (s.lanes i).order.map (ShardKind.key σ) = registration_order σ route i schedule := by
  induction schedule using List.reverseRecOn generalizing s with
  | nil =>
    obtain rfl := Option.some.inj hs
    rfl
  | append_singleton schedule turn ih =>
    rw [run, List.foldlM_append] at hs
    obtain ⟨t, ht, hturn⟩ := Option.bind_eq_some_iff.mp hs
    simp only [List.foldlM_cons, List.foldlM_nil, bind_pure] at hturn
    rw [step_order hturn, ih ht, registration_order, registration_order, List.filterMap_append,
      List.foldl_append]
    congr 1

/-- Whatever the schedule, a shard is what its calls one after the other, in the recorded order,
make of it; while a call holds the mutex, once the call is through. -/
theorem run_holds {schedule : List (Turn C)} (hs : new.run route schedule = some s)
    (i : Fin SHARD_COUNT) : ShardKind.holds (s.lanes i).outcome (s.lanes i).order := by
  induction schedule using List.reverseRecOn generalizing s with
  | nil =>
    obtain rfl := Option.some.inj hs
    exact Lane.outcome_new i
  | append_singleton schedule turn ih =>
    rw [run, List.foldlM_append] at hs
    obtain ⟨t, ht, hturn⟩ := Option.bind_eq_some_iff.mp hs
    simp only [List.foldlM_cons, List.foldlM_nil, bind_pure] at hturn
    have hold := ih ht
    -- the other lanes are as they were
    have hlane : ∀ {j : Fin SHARD_COUNT} {f : Lane σ T K → Option (Lane σ T K)},
        (∀ l, f (t.lanes j) = some l → ShardKind.holds (t.lanes j).outcome (t.lanes j).order →
          ShardKind.holds l.outcome l.order) →
        t.on_lane j f = some s → ShardKind.holds (s.lanes i).outcome (s.lanes i).order := by
      intro j f hf hon
      obtain ⟨l, hl, rfl⟩ := Option.map_eq_some_iff.mp hon
      dsimp only
      by_cases hi : i = j
      · subst hi
        rw [Function.update_self]
        exact hf l hl hold
      · rw [Function.update_of_ne hi]
        exact hold
    cases turn with
    | lock call => exact hlane (fun l hl h => Lane.outcome_lock h hl) hturn
    | access j =>
      refine hlane (fun l hl h => ?_) hturn
      rwa [Lane.outcome_access hl, Lane.access_order hl]
    | unlock j =>
      refine hlane (fun l hl h => ?_) hturn
      rwa [Lane.outcome_unlock hl, Lane.unlock_order hl]
    | visit v =>
      obtain ⟨visitor, -, rfl⟩ := Option.map_eq_some_iff.mp hturn
      exact hold

end Order

/-! ## What traversals see -/

/-- What traversals can rely on, whatever the schedule. -/
structure Sound (σ : Type) {T C K : Type} [ShardKind σ T C K] [DecidableEq K]
    (route : K → Fin SHARD_COUNT) : Prop where
  /-- No traversal reads an entry that has not been written. -/
  initialized : ∀ (schedule : List (Turn C)) (s : Traversals σ T K),
    new.run route schedule = some s → ∀ v, (s.visitors v).pc ≠ .fault
  /-- What a traversal has visited of a shard is the beginning of the shard's registration
  order, every entry once. -/
  beginning : ∀ (schedule : List (Turn C)) (s : Traversals σ T K),
    new.run route schedule = some s → ∀ i,
      (s.lanes i).order.map (ShardKind.key σ) = registration_order σ route i schedule
        ∧ ((s.lanes i).order.map (ShardKind.key σ)).Nodup
        ∧ ∀ v, (s.visitors v).visited i <+: (s.lanes i).order
  /-- A traversal that has finished a shard has visited the entry of every call that had
  returned before the traversal loaded the shard's index. -/
  returned : ∀ (before after : List (Turn C)) (s s' : Traversals σ T K),
    new.run route before = some s → s.run route after = some s' → ∀ v i,
      (s.visitors v).Pending i → (s'.visitors v).Finished i →
        ∀ k ∈ (s.lanes i).returned, k ∈ ((s'.visitors v).visited i).map (ShardKind.key σ)
  /-- A traversal that begins when another is over visits at least what that one visited. -/
  later : ∀ (before after : List (Turn C)) (s s' : Traversals σ T K),
    new.run route before = some s → s.run route after = some s' → ∀ v w,
      (s.visitors v).Done → s.visitors w = Visitor.new → (s'.visitors w).Done →
        ∀ i, (s.visitors v).visited i <+: (s'.visitors w).visited i

section Sound

variable [DecidableEq K] {route : K → Fin SHARD_COUNT} {s s' : Traversals σ T K}
  {before after : List (Turn C)}

theorem run_inv (hs : new.run route before = some s) :
    ∃ ps, s.Inv (fun _ _ => 0) ps := by
  obtain ⟨ps, h, -⟩ := inv_new.run hs
  exact ⟨ps, h⟩

/-- In the end a traversal has what was visible of a shard before it loaded the index. -/
theorem run_visible {due : ℕ → Fin SHARD_COUNT → ℕ} {ps : Fin SHARD_COUNT → Progress}
    (h : s.Inv due ps) (hs : s.run route after = some s') {v : ℕ} {i : Fin SHARD_COUNT}
    (hpending : (s.visitors v).Pending i) (hfinished : (s'.visitors v).Finished i) :
    (s.lanes i).order.take ((ps i).visible CHUNK_SIZE) <+: (s'.visitors v).visited i := by
  -- the index has not been loaded yet, so the traversal can be held to more
  have hraised : s.Inv (Function.update due v
      (Function.update (due v) i ((ps i).visible CHUNK_SIZE))) ps := h.raise v
    ((Function.forall_update_iff (due v) (fun j n => n ≤ (ps j).visible CHUNK_SIZE)).mpr
      ⟨le_rfl, fun j _ => (h.visitors v).due_le j⟩)
    (fun j => by
      by_cases hj : j = i
      · subst hj
        exact .inr hpending
      · exact .inl (Function.update_of_ne hj _ _))
  obtain ⟨ps', h', hgrow⟩ := hraised.run hs
  have hvisitor := h'.visitors v
  rw [Function.update_self] at hvisitor
  have hlen := hvisitor.behind i hfinished
  rw [Function.update_self] at hlen
  refine List.prefix_of_prefix_length_le ((List.take_prefix _ _).trans (hgrow i))
    (hvisitor.visited i) ?_
  rw [List.length_take]
  exact (min_le_left _ _).trans hlen

theorem sound (σ : Type) {T C K : Type} [ShardKind σ T C K] [DecidableEq K]
    (route : K → Fin SHARD_COUNT) : Sound σ route where
  initialized := by
    intro schedule s hs v
    obtain ⟨ps, h⟩ := run_inv hs
    have hv := h.visitors v
    intro hfault
    rcases hv.shard_le.lt_or_eq with hlt | heq
    · have hat := hv.here ⟨_, hlt⟩ rfl
      rw [hfault] at hat
      exact hat
    · rw [hv.ended heq] at hfault
      cases hfault
  beginning := by
    intro schedule s hs i
    obtain ⟨ps, h⟩ := run_inv hs
    exact ⟨run_order hs i, (h.lanes i).nodup, fun v => (h.visitors v).visited i⟩
  returned := by
    intro before after s s' hs hs' v i hpending hfinished k hk
    obtain ⟨ps, h⟩ := run_inv hs
    exact ((run_visible h hs' hpending hfinished).map _).subset ((h.lanes i).returned k hk)
  later := by
    intro before after s s' hs hs' v w hdone hnew hdone' i
    obtain ⟨ps, h⟩ := run_inv hs
    have hpending : (s.visitors w).Pending i := by
      rw [hnew]
      rcases Nat.eq_zero_or_pos i.val with hi | hi
      · exact .inr ⟨hi.symm, rfl⟩
      · exact .inl hi
    have hfinished : (s'.visitors w).Finished i := by
      rw [Visitor.Finished, hdone']
      exact i.isLt
    -- the earlier traversal saw no more than what was visible at its end
    have hseen : (s.visitors v).visited i
        <+: (s.lanes i).order.take ((ps i).visible CHUNK_SIZE) := by
      have hv := h.visitors v
      refine List.prefix_of_prefix_length_le (hv.visited i) (List.take_prefix _ _) ?_
      have := (hv.visited i).length_le
      rw [List.length_take]
      exact le_min (hv.length_le i) this
    exact hseen.trans (run_visible h hs' hpending hfinished)

end Sound

end Traversals

/-- A traversal that loads an index before the first entry is there misses it; the next one
reads it before the call that adds it has returned. -/
example :
    let first : Fin SHARD_COUNT := ⟨0, by decide⟩
    let begun : List (Turn ProfileMeta) := [.visit 0, .lock (.Single "a" .HttpAll), .access first,
      .access first, .access first, .visit 0, .access first, .access first]
    ((Traversals.new.run (fun _ => first)
        (begun ++ [.visit 1, .visit 1, .visit 1, .access first])).map
      (fun s : Traversals Shard MetricMeta TimingKey =>
        (((s.visitors 0).visited first).length, ((s.visitors 1).visited first).length)))
      = some (0, 1) := by
  rfl

/-- Traversals of the timing registry and of the scalar registry, with the shards that the hash
functions pick. -/
theorem traversals_visit_beginnings (shard_hasher : RandomState TimingKey)
    (hasher : RandomState ScalarKey) :
    Traversals.Sound Shard (fun k => select_shard (shard_hasher.hash_one k))
      ∧ Traversals.Sound ScalarShard (fun k => select_shard (hasher.hash_one k)) :=
  ⟨Traversals.sound Shard _, Traversals.sound ScalarShard _⟩

end BrzMetrics
