/-
`visit` beside a running process.

`visit` of `src/src/lib.rs` takes no mutex and makes no snapshot: it goes through the
timing shards, and for every entry that it reads it loads the six counters of the
slot, one after the other, before it goes on. A `VisitCall` is such a call, one load
or read at a time, as an observer of a process in which any threads register and
update meanwhile.

Its visitor goes along with the shards (`Traversals.Shadows`), and what it reports of
an entry are the values that the counters had at six moments of the call, in order
(`VisitCall.Inv`). So it reports every slot that some thread had a handle to, each
once; it credits no operation without its details; and what it reports never falls
(`visits_between`, `visits_monotone`).
-/
import BrzMetrics.Shadows
import BrzMetrics.Observer
import BrzMetrics.Visit

set_option autoImplicit false

namespace BrzMetrics

open ChunkLog KeyedStore

/-! ## The call -/

/-- The entry that the next step of a traversal reads, if it reads one. -/
def Visitor.reads {T : Type} (stores : Fin SHARD_COUNT → Chunks T) (self : Visitor T) : Option T :=
  if h : self.shard < SHARD_COUNT then
    match self.pc with
    | .reading arc len offset _ =>
      if offset < len then (stores ⟨self.shard, h⟩).read arc offset else none
    | .start => none
    | .chunks _ => none
    | .fault => none
  else none

/-- The counter that load number `i` of `snapshot` is of. -/
def SlotField.loaded : ℕ → SlotField
  | 0 => .count
  | 1 => .elapsed_us
  | 2 => .slow_count
  | 3 => .slow_elapsed_us
  | 4 => .failure_count
  | _ => .failure_elapsed_us

/-- `MetricSnapshot::from_counters`, once all counters have been loaded. -/
def MetricSnapshot.from_loads : List UInt64 → Option MetricSnapshot
  | [total, elapsed_us, slow, slow_elapsed_us, failure, failure_elapsed_us] =>
    some (from_counters total elapsed_us slow slow_elapsed_us failure failure_elapsed_us)
  | _ => none

/-- A call of `visit`: its traversal, the entry whose counters it is loading with those loaded so
far, and the entries it has reported. -/
structure VisitCall where
  visitor : Visitor MetricMeta
  loading : Option (MetricMeta × List UInt64)
  rows : List (MetricMeta × MetricSnapshot)

namespace VisitCall

/-- A call that has just begun. -/
def new : VisitCall := { visitor := Visitor.new, loading := none, rows := [] }

/-- One load or read of the call. -/
def step (p : Process) (self : VisitCall) : Option VisitCall :=
  match self.loading with
  | some (entry, values) =>
    let values := values ++ [p.memory (.slot entry.item (SlotField.loaded values.length))]
    match MetricSnapshot.from_loads values with
    | some snapshot =>
      some { self with loading := none, rows := self.rows ++ [(entry, snapshot)] }
    | none => some { self with loading := some (entry, values) }
  | none =>
    let stores := fun i => ShardKind.store (p.timing.lanes i).shard
    (self.visitor.step stores).map (fun visitor =>
      { self with
        visitor := visitor
        loading := (self.visitor.reads stores).map (fun entry => (entry, [])) })

/-- The call is over. -/
def Done (self : VisitCall) : Prop := self.visitor.Done ∧ self.loading = none

/-- The calls of the closure, in order. -/
def reported (self : VisitCall) : List (String × String × MetricSnapshot) :=
  self.rows.flatMap (fun (entry, snapshot) => callbacks entry snapshot)

end VisitCall

/-! ## What a call has seen -/

/-- A visitor whose invariant holds has met no fault. -/
theorem Visitor.Inv.no_fault {T : Type} {due : Fin SHARD_COUNT → ℕ}
    {orders : Fin SHARD_COUNT → List T} {ps : Fin SHARD_COUNT → Progress} {v : Visitor T}
    (h : v.Inv due orders ps) : v.pc ≠ .fault := by
  intro hfault
  rcases h.shard_le.lt_or_eq with hlt | heq
  · have hat := h.here ⟨_, hlt⟩ rfl
    rw [hfault] at hat
    exact hat
  · rw [h.ended heq] at hfault
    cases hfault

/-- What a step of a traversal adds to the entries it has visited. -/
theorem Visitor.traversed_step {T : Type} {stores : Fin SHARD_COUNT → Chunks T} {v v' : Visitor T}
    (h : v.step stores = some v') (hv : v'.pc ≠ .fault) :
    (Process.traversed v').Perm (Process.traversed v ++ (v.reads stores).toList) := by
  unfold Visitor.step at h
  unfold Visitor.reads
  by_cases hlt : v.shard < SHARD_COUNT
  swap
  · simp [hlt] at h
  rw [dif_pos hlt] at h ⊢
  dsimp only at h ⊢
  have hsame : ∀ w : Visitor T, w.visited = v.visited →
      (Process.traversed w).Perm (Process.traversed v ++ (none : Option T).toList) := by
    intro w hw
    rw [Option.toList_none, List.append_nil, Process.traversed, Process.traversed, hw]
  rcases hpc : v.pc with _ | (_ | ⟨arc, rest⟩) | ⟨arc, len, offset, rest⟩ | _
  · simp only [hpc, Option.some.injEq] at h
    subst h
    exact hsame _ rfl
  · simp only [hpc, Option.some.injEq] at h
    subst h
    exact hsame _ rfl
  · simp only [hpc, Option.some.injEq] at h
    subst h
    exact hsame _ rfl
  · simp only [hpc] at h
    dsimp only
    by_cases ho : offset < len
    · rw [if_pos ho] at h ⊢
      cases hread : (stores ⟨v.shard, hlt⟩).read arc offset with
      | none =>
        -- a fault
        rw [hread] at h
        obtain rfl := Option.some.inj h
        exact absurd rfl hv
      | some entry =>
        rw [hread] at h
        obtain rfl := Option.some.inj h
        exact flat_update_append v.visited ⟨v.shard, hlt⟩ entry
    · rw [if_neg ho, Option.some.injEq] at h
      rw [if_neg ho]
      subst h
      exact hsame _ rfl
  · simp [hpc] at h

/-- A snapshot that a call has taken of a slot between the moments `start` and `k`. -/
def Taken (host : Host) (schedule : List Move) (start k : ℕ) (item : ItemPtr)
    (seen : MetricSnapshot) : Prop :=
  ∃ time : ℕ → ℕ, Monotone time ∧ (∀ i, start ≤ time i ∧ time i ≤ k)
    ∧ seen = snapshot (fun i => (Process.moment host schedule (time i)).memory) item

/-- The same of the first loads of a snapshot. -/
def Loaded (host : Host) (schedule : List Move) (start k : ℕ) (item : ItemPtr)
    (values : List UInt64) : Prop :=
  ∃ time : ℕ → ℕ, Monotone time ∧ (∀ i, start ≤ time i ∧ time i ≤ k)
    ∧ values = (List.range values.length).map (fun i =>
        (Process.moment host schedule (time i)).memory (.slot item (SlotField.loaded i)))

section Loads

variable {host : Host} {schedule : List Move} {start k k' : ℕ} {item : ItemPtr}
  {values : List UInt64} {seen : MetricSnapshot}

theorem Taken.mono (h : Taken host schedule start k item seen) (hk : k ≤ k') :
    Taken host schedule start k' item seen := by
  obtain ⟨time, hmono, hbounds, hseen⟩ := h
  exact ⟨time, hmono, fun i => ⟨(hbounds i).1, (hbounds i).2.trans hk⟩, hseen⟩

theorem Loaded.mono (h : Loaded host schedule start k item values) (hk : k ≤ k') :
    Loaded host schedule start k' item values := by
  obtain ⟨time, hmono, hbounds, hvalues⟩ := h
  exact ⟨time, hmono, fun i => ⟨(hbounds i).1, (hbounds i).2.trans hk⟩, hvalues⟩

theorem loaded_nil (h : start ≤ k) : Loaded host schedule start k item [] :=
  ⟨fun _ => k, monotone_const, fun _ => ⟨h, le_rfl⟩, rfl⟩

/-- The next load. -/
theorem Loaded.load (h : Loaded host schedule start k item values) (hk : start ≤ k) :
    Loaded host schedule start k item (values ++ [(Process.moment host schedule k).memory
      (.slot item (SlotField.loaded values.length))]) := by
  obtain ⟨time, hmono, hbounds, hvalues⟩ := h
  refine ⟨fun i => if i < values.length then time i else k, fun i j hij => ?_, fun i => ?_, ?_⟩
  · dsimp only
    split_ifs with hi hj
    · exact hmono hij
    · exact (hbounds i).2
    · omega
    · exact le_rfl
  · dsimp only
    split_ifs
    · exact hbounds i
    · exact ⟨hk, le_rfl⟩
  · rw [List.length_append, List.length_singleton, List.range_succ, List.map_append,
      List.map_singleton]
    dsimp only
    rw [if_neg (lt_irrefl _)]
    congr 1
    conv_lhs => rw [hvalues]
    refine List.map_congr_left (fun i hi => ?_)
    rw [if_pos (List.mem_range.mp hi)]

/-- The last load. -/
theorem Loaded.taken (h : Loaded host schedule start k item values)
    (hseen : MetricSnapshot.from_loads values = some seen) :
    Taken host schedule start k item seen := by
  obtain ⟨time, hmono, hbounds, hvalues⟩ := h
  refine ⟨time, hmono, hbounds, ?_⟩
  have hlength : values.length = 6 := by
    rcases values with _ | ⟨_, _ | ⟨_, _ | ⟨_, _ | ⟨_, _ | ⟨_, _ | ⟨_, _ | ⟨_, _⟩⟩⟩⟩⟩⟩⟩ <;>
      simp [MetricSnapshot.from_loads] at hseen ⊢
  rw [hlength] at hvalues
  rw [hvalues] at hseen
  exact (Option.some.inj hseen).symm

end Loads

namespace VisitCall

open Process

/-- What holds of a call that was begun at the moment `start`, beside visitor `v` of a run of the
timing shards from `s` on, at the moment `k`. -/
structure Inv (host : Host) (schedule : List Move) (s : Traversals Shard MetricMeta TimingKey)
    (v start k : ℕ) (call : VisitCall) : Prop where
  shadows : s.Shadows ProfileMeta host.timing_route v (moment host schedule k).timing.lanes
    call.visitor
  entries : (traversed call.visitor).Perm
    (call.rows.map Prod.fst ++ (call.loading.map Prod.fst).toList)
  taken : ∀ row ∈ call.rows, Taken host schedule start k row.1.item row.2
  loading : ∀ entry values, call.loading = some (entry, values) →
    Loaded host schedule start k entry.item values

section Inv

variable {host : Host} {schedule : List Move} {s : Traversals Shard MetricMeta TimingKey}
  {turns : List (Turn ProfileMeta)} {v start k : ℕ} {call call' : VisitCall}

theorem inv_new (hs : s.lanes = (moment host schedule start).timing.lanes)
    (hv : s.visitors v = Visitor.new) : new.Inv host schedule s v start start where
  shadows := Traversals.shadows_refl hs hv
  entries := by
    have hnil : traversed (Visitor.new : Visitor MetricMeta) = [] :=
      List.flatMap_eq_nil_iff.mpr (fun _ _ => rfl)
    rw [new, hnil]
    exact List.Perm.refl []
  taken _ h := absurd h List.not_mem_nil
  loading _ _ h := absurd h.symm (Option.some_ne_none _)

/-- The process goes on. -/
theorem Inv.move (h : call.Inv host schedule s v start k) {move : Move}
    (hmove : (moment host schedule k).step host move = some (moment host schedule (k + 1))) :
    call.Inv host schedule s v start (k + 1) where
  shadows := (step_happens hmove).shadows_timing h.shadows
  entries := h.entries
  taken row hrow := (h.taken row hrow).mono (Nat.le_succ k)
  loading entry values heq := (h.loading entry values heq).mono (Nat.le_succ k)

/-- The call goes on. -/
theorem Inv.look (h : call.Inv host schedule s v start k)
    (hs : Traversals.new.run host.timing_route turns = some s) (hk : start ≤ k)
    (hlook : call.step (moment host schedule k) = some call') :
    call'.Inv host schedule s v start k := by
  unfold step at hlook
  cases hloading : call.loading with
  | some reading =>
    obtain ⟨entry, values⟩ := reading
    have hload := (h.loading entry values hloading).load hk
    have hentries := h.entries
    simp only [hloading] at hlook
    rw [hloading] at hentries
    cases hfull : MetricSnapshot.from_loads (values ++ [(moment host schedule k).memory
        (.slot entry.item (SlotField.loaded values.length))]) with
    | some seen =>
      -- the last load
      rw [hfull] at hlook
      obtain rfl := Option.some.inj hlook
      refine ⟨h.shadows, ?_, fun row hrow => ?_,
        fun _ _ heq => absurd heq.symm (Option.some_ne_none _)⟩
      · rw [List.map_append, Option.map_none, Option.toList_none, List.append_nil]
        exact hentries
      · rcases List.mem_append.mp hrow with hrow | hrow
        · exact h.taken row hrow
        · obtain rfl := List.mem_singleton.mp hrow
          exact hload.taken hfull
    | none =>
      rw [hfull] at hlook
      obtain rfl := Option.some.inj hlook
      refine ⟨h.shadows, hentries, h.taken, fun entry' values' heq => ?_⟩
      obtain ⟨rfl, rfl⟩ := Prod.mk.inj (Option.some.inj heq)
      exact hload
  | none =>
    -- a step of the traversal
    have hentries := h.entries
    rw [hloading, Option.map_none, Option.toList_none, List.append_nil] at hentries
    simp only [hloading] at hlook
    obtain ⟨visitor, hvisitor, rfl⟩ := Option.map_eq_some_iff.mp hlook
    have hshadows := h.shadows.visit hvisitor
    obtain ⟨ps, -, hinv⟩ := hshadows.inv hs
    refine ⟨hshadows, ?_, h.taken, fun entry values heq => ?_⟩
    · refine (Visitor.traversed_step hvisitor hinv.no_fault).trans ?_
      rw [Option.map_map]
      refine (hentries.append_right _).trans (List.Perm.of_eq ?_)
      congr 2
      exact Option.map_id'.symm
    · obtain ⟨entry', -, heq⟩ := Option.map_eq_some_iff.mp heq
      obtain ⟨rfl, rfl⟩ := Prod.mk.inj heq
      exact loaded_nil hk

/-- A call that is over has reported what its traversal has visited. -/
theorem Inv.entries_done (h : call.Inv host schedule s v start k)
    (hdone : call.Done) : (traversed call.visitor).Perm (call.rows.map Prod.fst) := by
  have hentries := h.entries
  rwa [hdone.2, Option.map_none, Option.toList_none, List.append_nil] at hentries

end Inv

end VisitCall

/-! ## Watched processes -/

namespace Process

section Watch

variable {host : Host} {before schedule : List Move} {p q last : Process}

/-- What a run has come to after a beginning of it. -/
theorem moment_beginning (hp : new.run host before = some p) (hfull : before <+: schedule) :
    moment host schedule before.length = p := by
  rw [moment, ← List.prefix_iff_eq_take.mp hfull, hp]
  rfl

variable {O : Type} {look : Process → O → Option O} {o o' : O} {turns : List (Option Move)}

/-- The moves of a watched process follow those that were made before. -/
theorem run_watched (hp : new.run host before = some p)
    (hq : Watch.run (step host) look (p, o) turns = some (q, o')) :
    new.run host (before ++ turns.reduceOption) = some q :=
  run_append hp (Watch.run_moves hq)

/-- An observer of a process that has begun when `before` has been run: what holds of it in the
end. -/
theorem watch_induct {P : ℕ → O → Prop} (hp : new.run host before = some p)
    (hq : Watch.run (step host) look (p, o) turns = some (q, o'))
    (hfull : before ++ turns.reduceOption <+: schedule)
    (hrun : new.run host schedule = some last) (hbegin : P before.length o)
    (hmove : ∀ k o m, (moment host schedule k).step host m = some (moment host schedule (k + 1)) →
      P k o → P (k + 1) o)
    (hlook : ∀ k o o', before.length ≤ k → look (moment host schedule k) o = some o' → P k o →
      P k o') : P (before ++ turns.reduceOption).length o' := by
  have hfirst := moment_beginning hp ((List.prefix_append _ _).trans hfull)
  have hstate : ∀ k ≤ turns.reduceOption.length, (turns.reduceOption.take k).foldlM (step host) p
      = some (moment host schedule (before.length + k)) := by
    intro k hk
    have hbetween := run_between hrun (Nat.le_add_right before.length k)
    obtain ⟨rest, hrest⟩ := hfull
    have htake : (schedule.take (before.length + k)).drop before.length
        = turns.reduceOption.take k := by
      rw [← hrest, List.append_assoc, List.take_length_add_append, List.drop_left,
        List.take_append_of_le_length hk]
    rw [hfirst, htake] at hbetween
    exact hbetween
  rw [List.length_append]
  exact Watch.run_induct (P := fun k o => P (before.length + k) o) hq hstate hbegin
    (fun k o m _ => hmove (before.length + k) o m)
    (fun k o o' _ => hlook (before.length + k) o o' (Nat.le_add_right _ _))

/-- A visitor of one's own for the timing shards of a process. -/
theorem exists_unvisited (hp : new.run host before = some p) :
    ∃ turns : List (Turn ProfileMeta), Traversals.new.run host.timing_route turns
      = some p.timing.unvisited := by
  obtain ⟨turns, hturns⟩ := (run_steps hp).1.timing
  exact Traversals.run_unvisited hturns

end Watch

/-! ## What a call lists -/

/-- What is known of the entries that a call has reported which was begun in `p` and is over in
`q`. -/
structure Lists (p q : Process) (history : History) (entries : List MetricMeta) : Prop where
  /-- Every entry is that of a registration which has taken its mutex. -/
  origin : ∀ m ∈ entries, ∃ op handle, (op, handle) ∈ history.issued q.order.length
    ∧ m.registered = op.returned handle.slot
  keys_nodup : ((entries.map MetricMeta.registered).map Entry.key).Nodup
  slots_nodup : ((entries.map MetricMeta.registered).map Entry.slot).Nodup
  /-- The slots that threads had handles to before it was begun are among them. -/
  complete : ∀ metric, .metric metric ∈ p.returned → ∃ m ∈ entries, m.item = metric.item

section Visits

variable {host : Host} {before schedule : List Move} {p q last : Process}
  {turns : List (Option Move)} {call : VisitCall} {s : Traversals Shard MetricMeta TimingKey}
  {sturns : List (Turn ProfileMeta)} {v : ℕ}

/-- The invariant of a call holds in the end. -/
theorem visit_inv (hp : new.run host before = some p)
    (hq : Watch.run (step host) VisitCall.step (p, VisitCall.new) turns = some (q, call))
    (hfull : before ++ turns.reduceOption <+: schedule)
    (hrun : new.run host schedule = some last)
    (hs : Traversals.new.run host.timing_route sturns = some s) (hlanes : s.lanes = p.timing.lanes)
    (hv : s.visitors v = Visitor.new) :
    call.Inv host schedule s v before.length (before ++ turns.reduceOption).length := by
  refine watch_induct hp hq hfull hrun (VisitCall.inv_new ?_ hv) (fun k o m hmove h => h.move hmove)
    (fun k o o' hk hlook h => h.look hs hk hlook)
  rw [moment_beginning hp ((List.prefix_append _ _).trans hfull)]
  exact hlanes

/-- What a call has reported are entries of the registry, among them all that were returned before
it was begun. -/
theorem lists (hp : new.run host before = some p)
    (hq : Watch.run (step host) VisitCall.step (p, VisitCall.new) turns = some (q, call))
    (hdone : call.Done) {history : History} (hrep : q.Represented host history) :
    Lists p q history (call.rows.map Prod.fst) := by
  have hall := run_watched hp hq
  obtain ⟨sturns, hs⟩ := exists_unvisited hp
  have hinv := visit_inv hp hq List.prefix_rfl hall hs rfl (v := 0) rfl
  obtain ⟨store, hreached⟩ := hrep.store hall
  have hvisited := hinv.shadows.sublist hs
  rw [moment_beginning hall List.prefix_rfl] at hvisited
  obtain ⟨_, before', -, hbefore', -⟩ := run_turns hp
  obtain ⟨_, after', -, hafter', -⟩ := run_turns (Watch.run_moves hq)
  -- with all scalar entries it is what a reader might capture
  have hcaptures : Captures p q history (traversed call.visitor) (flat q.scalars.orders) :=
    captures_of hp hrep hreached (grows_run (Watch.run_moves hq)).2 hvisited (List.Sublist.refl _)
      (fun i k hk => hinv.shadows.exists_traversed hs rfl hdone.1 hk)
      (fun i k hk => exists_entry hbefore' hafter' hk)
  have hentries := (hinv.entries_done hdone).map MetricMeta.registered
  have hsublist : ((traversed call.visitor).map MetricMeta.registered).Sublist
      (registered (traversed call.visitor) (flat q.scalars.orders)) :=
    List.sublist_append_left _ _
  refine ⟨fun m hm => ?_, ?_, ?_, fun metric hmetric => ?_⟩
  · obtain ⟨op, handle, hissued, -, heq⟩ := hcaptures.origin m.registered
      (hsublist.subset (hentries.mem_iff.mpr (List.mem_map_of_mem hm)))
    exact ⟨op, handle, hissued, heq⟩
  · exact (hentries.map Entry.key).nodup_iff.mp (hcaptures.keys_nodup.sublist (hsublist.map _))
  · exact (hentries.map Entry.slot).nodup_iff.mp (hcaptures.slots_nodup.sublist (hsublist.map _))
  · obtain ⟨op, -, e, he, -, heq⟩ := hcaptures.complete _ hmetric
    rcases List.mem_append.mp he with he | he
    · obtain ⟨m, hm, rfl⟩ := List.mem_map.mp (hentries.subset he)
      exact ⟨m, hm, SlotPtr.timing.inj heq⟩
    · -- the slot of a scalar entry is none of a timing handle
      obtain ⟨m, -, rfl⟩ := List.mem_map.mp he
      exact SlotPtr.noConfusion heq

end Visits

/-! ## What a call reports -/

section Values

variable {host : Host} {schedule : List Move} {last : Process}

/-- A field of a snapshot is one load. -/
theorem of_snapshot (env : ℕ → Memory) (item : ItemPtr) (counter : Counter) :
    (snapshot env item).of counter
      = env counter.field.position (.slot item counter.field) := by
  cases counter <;> rfl

/-- While what the begun calls add fits in a word, nothing of the recording wraps. -/
theorem Records.fits {history : History} {r : Recording history} {time : ℕ → ℕ}
    (h : Records host schedule last r time) {atomic : Atomic}
    (hfits : begun_amount schedule schedule.length atomic ≤ U64_MAX) :
    added r.ops atomic ≤ U64_MAX := by
  have hamounts := (h.amounts schedule.length atomic).2
  rw [h.last, show r.steps.length = r.ops.length from (List.length_map _).symm,
    List.take_length] at hamounts
  exact hamounts.trans hfits

/-- What a snapshot credits, and what its counters are. -/
theorem Records.taken {history : History} {r : Recording history} {time : ℕ → ℕ}
    (h : Records host schedule last r time) {start finish : ℕ} (hfinish : finish ≤ schedule.length)
    {item : ItemPtr} {seen : MetricSnapshot} (htaken : Taken host schedule start finish item seen)
    (hfits : ∀ atomic, begun_amount schedule schedule.length atomic ≤ U64_MAX) :
    ∃ t, time start ≤ t ∧ t ≤ time finish ∧ seen.total.toNat = (r.credited item t).card
      ∧ seen.success.toNat
          ≤ ((r.credited item t).filter (fun i => (r.calls.get i).successful)).card
      ∧ ∀ counter : Counter,
        ∑ i ∈ r.credited item t, (r.calls.get i).amount (.slot item counter.field)
            ≤ (seen.of counter).toNat
        ∧ returned_amount host schedule start (.slot item counter.field) ≤ (seen.of counter).toNat
        ∧ (seen.of counter).toNat ≤ begun_amount schedule finish (.slot item counter.field) := by
  obtain ⟨moments, hmono, hbounds, rfl⟩ := htaken
  have hslot : ∀ field gauge, .gauge gauge ∈ last.returned →
      Atomic.slot item field ≠ .scalar gauge.item := fun _ _ _ => Atomic.noConfusion
  have hload : ∀ i field, (moment host schedule (moments i)).memory (.slot item field)
      = r.memory (time (moments i)) (.slot item field) := fun i field => h.memory _ _ (hslot field)
  have hwithin : ∀ field, added r.ops (.slot item field) ≤ U64_MAX :=
    fun field => h.fits (hfits _)
  -- the count is loaded first
  have hfirst : ∀ i, time (moments 0) ≤ time (moments i) := fun i => h.mono (hmono (Nat.zero_le i))
  refine ⟨time (moments 0), h.mono (hbounds 0).1, h.mono (hbounds 0).2, ?_, ?_, fun counter => ?_⟩
  · change ((moment host schedule (moments 0)).memory (.slot item .count)).toNat = _
    rw [hload]
    exact Recording.observed_count hwithin _
  · change (saturating_sub_u64 ((moment host schedule (moments 0)).memory (.slot item .count))
      ((moment host schedule (moments 4)).memory (.slot item .failure_count))).toNat ≤ _
    rw [saturating_sub_u64_toNat, hload, hload]
    exact Recording.observed_success hwithin (hfirst 4)
  · rw [of_snapshot]
    generalize counter.field = field
    have hbetween := h.between (k := moments field.position) (hslot field)
      ((begun_amount_mono schedule ((hbounds _).2.trans hfinish) _).trans (hfits _))
    refine ⟨?_, (returned_amount_mono host schedule (hbounds _).1 _).trans hbetween.1,
      hbetween.2.trans (begun_amount_mono schedule (hbounds _).2 _)⟩
    rw [hload]
    exact (Recording.observed hwithin (hfirst _) field).1

/-- A later snapshot of the same slot shows no less. -/
theorem Records.taken_mono {history : History} {r : Recording history} {time : ℕ → ℕ}
    (h : Records host schedule last r time) {start finish start' finish' : ℕ}
    (hfinish : finish' ≤ schedule.length) (hafter : finish ≤ start') {item : ItemPtr}
    {seen seen' : MetricSnapshot} (htaken : Taken host schedule start finish item seen)
    (htaken' : Taken host schedule start' finish' item seen')
    (hfits : ∀ atomic, begun_amount schedule schedule.length atomic ≤ U64_MAX) (counter : Counter) :
    (seen.of counter).toNat ≤ (seen'.of counter).toNat := by
  obtain ⟨moments, -, hbounds, rfl⟩ := htaken
  obtain ⟨moments', -, hbounds', rfl⟩ := htaken'
  rw [of_snapshot, of_snapshot]
  refine h.monotone (((hbounds _).2.trans hafter).trans (hbounds' _).1)
    (fun _ _ => Atomic.noConfusion) ?_
  exact (begun_amount_mono schedule ((hbounds' _).2.trans hfinish) _).trans (hfits _)

end Values

/-- What `visit` reports of a running process. In every run of a process in which a call of `visit`
is begun after `before` and goes on, load by load, while any threads register and update: it reports
entries of the registry, each key and slot once, and the slot of every handle that was there when it
began. As long as what all begun calls add to any counter fits in a word, the values are of calls:
the total of an entry is the number of calls that some moment of the call credits, and every counter
contains what these calls have added to it, so no more of them are reported as successful than were.
Besides, a counter is at least what the calls add that had returned when the call began, and at most
what those add that have begun when it is over. -/
theorem visits_between (host : Host) (before : List Move) (turns : List (Option Move))
    (p q : Process) (call : VisitCall) (hp : new.run host before = some p)
    (hq : Watch.run (step host) VisitCall.step (p, VisitCall.new) turns = some (q, call))
    (hdone : call.Done) :
    ∃ (history : History) (r : Recording history) (time : ℕ → ℕ),
      q.Represented host history ∧ Records host (before ++ turns.reduceOption) q r time
      ∧ Lists p q history (call.rows.map Prod.fst)
      ∧ ((∀ atomic, begun_amount (before ++ turns.reduceOption)
          (before ++ turns.reduceOption).length atomic ≤ U64_MAX) →
        ∀ row ∈ call.rows, ∃ t,
        time before.length ≤ t ∧ row.2.total.toNat = (r.credited row.1.item t).card
        ∧ row.2.success.toNat
            ≤ ((r.credited row.1.item t).filter (fun i => (r.calls.get i).successful)).card
        ∧ ∀ counter : Counter,
          ∑ i ∈ r.credited row.1.item t, (r.calls.get i).amount (.slot row.1.item counter.field)
              ≤ (row.2.of counter).toNat
          ∧ returned_amount host (before ++ turns.reduceOption) before.length
                (.slot row.1.item counter.field) ≤ (row.2.of counter).toNat
          ∧ (row.2.of counter).toNat ≤ begun_amount (before ++ turns.reduceOption)
              (before ++ turns.reduceOption).length (.slot row.1.item counter.field)) := by
  have hall := run_watched hp hq
  obtain ⟨history, r, time, hrep, hrecords⟩ := exists_records hall
  obtain ⟨sturns, hs⟩ := exists_unvisited hp
  have hinv := visit_inv hp hq List.prefix_rfl hall hs rfl (v := 0) rfl
  refine ⟨history, r, time, hrep, hrecords, lists hp hq hdone hrep, fun hfits row hrow => ?_⟩
  obtain ⟨t, ht, -, hrest⟩ := hrecords.taken le_rfl (hinv.taken row hrow) hfits
  exact ⟨t, ht, hrest⟩

/-- A queue is counted on. -/
def queue_counted : List Move :=
  queue_first ++ [.update 0 (.timing (.increment queue)), .apply 0, .apply 0]

/-- It is visited while it is counted on again: once the total has been loaded, but before the other
counters are. -/
def queue_visited : List (Option Move) :=
  List.replicate 5 none ++ [some (.update 1 (.timing (.increment queue))), some (.apply 1)]
    ++ List.replicate 132 none

set_option maxRecDepth 4000 in
/-- All occurrences fit in a word. -/
theorem queue_visited_fits (looks : ℕ) (k : ℕ) (atomic : Atomic) :
    begun_amount (queue_counted ++ queue_visited.reduceOption
      ++ (List.replicate looks (none : Option Move)).reduceOption) k atomic ≤ U64_MAX := by
  have hlooks : (List.replicate looks (none : Option Move)).reduceOption = [] := by
    simp [List.reduceOption]
  have hcalled : called (queue_counted ++ queue_visited.reduceOption)
      = [⟨10, 0, .increment queue⟩, ⟨13, 1, .increment queue⟩] := by rfl
  have hincrements : ∀ c ∈ called (queue_counted ++ queue_visited.reduceOption),
      ∃ metric, c.call = .increment metric := by
    simp [hcalled]
  have hamount := begun_amount_increments hincrements k atomic
  rw [hcalled] at hamount
  rw [hlooks, List.append_nil]
  exact hamount.trans (by decide)

set_option maxRecDepth 4000 in
/-- The visit is over and has reported the queue. -/
theorem queue_visits : ∃ p q call, new.run Host.seedless queue_counted = some p
    ∧ p.returned = [.metric queue]
    ∧ Watch.run (step Host.seedless) VisitCall.step (p, VisitCall.new) queue_visited
        = some (q, call)
    ∧ call.Done := by
  obtain ⟨p, hp⟩ := Option.isSome_iff_exists.mp
    (show (new.run Host.seedless queue_counted).isSome = true by rfl)
  have hreturned : (new.run Host.seedless queue_counted).map returned
      = some [.metric queue] := by rfl
  have hover : ((new.run Host.seedless queue_counted).bind (fun p =>
      Watch.run (step Host.seedless) VisitCall.step (p, VisitCall.new) queue_visited)).map
        (fun x => (x.2.visitor.shard, x.2.loading.isNone)) = some (64, true) := by rfl
  rw [hp] at hreturned
  rw [hp, Option.bind_some] at hover
  obtain ⟨⟨q, call⟩, hq, hdone⟩ := Option.map_eq_some_iff.mp hover
  obtain ⟨hshard, hloading⟩ := Prod.mk.inj hdone
  exact ⟨p, q, call, hp, Option.some.inj hreturned, hq, hshard,
    Option.isNone_iff_eq_none.mp hloading⟩

theorem queue_visited_between : ∃ p q call, new.run Host.seedless queue_counted = some p
    ∧ Watch.run (step Host.seedless) VisitCall.step (p, VisitCall.new) queue_visited
        = some (q, call)
    ∧ ∃ row ∈ call.rows, row.1.item = queue.item ∧ 1 ≤ (row.2.of .Total).toNat
      ∧ (row.2.of .Total).toNat ≤ 2 := by
  obtain ⟨p, q, call, hp, hreturned, hq, hdone⟩ := queue_visits
  obtain ⟨history, r, time, -, -, hlists, hrows⟩ :=
    visits_between Host.seedless queue_counted queue_visited p q call hp hq hdone
  obtain ⟨m, hm, hitem⟩ := hlists.complete queue
    (by rw [hreturned]; exact List.mem_singleton_self _)
  obtain ⟨row, hrow, rfl⟩ := List.mem_map.mp hm
  obtain ⟨t, -, -, -, hcounters⟩ := hrows (fun atomic => by
    have hfits := queue_visited_fits 0 (queue_counted ++ queue_visited.reduceOption).length atomic
    rwa [List.replicate_zero, List.reduceOption_nil, List.append_nil] at hfits) row hrow
  obtain ⟨-, hlo, hhi⟩ := hcounters .Total
  rw [hitem] at hlo hhi
  exact ⟨p, q, call, hp, hq, row, hrow, hitem,
    (show 1 ≤ returned_amount Host.seedless (queue_counted ++ queue_visited.reduceOption)
      queue_counted.length (.slot queue.item .count) by decide).trans hlo,
    hhi.trans (show begun_amount (queue_counted ++ queue_visited.reduceOption)
      (queue_counted ++ queue_visited.reduceOption).length (.slot queue.item .count) ≤ 2 by decide)⟩

/-- What is called back for an entry is, but for the snapshot, always the same. -/
theorem callbacks_snapshot {entry : MetricMeta} {name metric_type : String}
    {seen seen' : MetricSnapshot} (h : (name, metric_type, seen') ∈ callbacks entry seen)
    (later : MetricSnapshot) :
    seen' = seen ∧ (name, metric_type, later) ∈ callbacks entry later := by
  obtain ⟨item, profile⟩ := entry
  cases profile with
  | Single name' kind =>
    obtain ⟨rfl, rfl, rfl⟩ : name = name' ∧ metric_type = kind.output.1 ∧ seen' = seen := by
      simpa [callbacks] using h
    exact ⟨rfl, by simp [callbacks]⟩
  | Resource labels kind =>
    obtain ⟨rfl, rfl, rfl⟩ : name = labels.name ∧ metric_type = kind.output.1 ∧ seen' = seen := by
      simpa [callbacks] using h
    exact ⟨rfl, by simp [callbacks]⟩
  | Fanout plan =>
    obtain ⟨output, houtput, heq⟩ := List.mem_map.mp h
    simp only [Prod.mk.injEq] at heq
    obtain ⟨rfl, rfl, rfl⟩ := heq
    exact ⟨rfl, List.mem_map.mpr ⟨output, houtput, rfl⟩⟩

/-- From one `visit` of a running process to the next nothing vanishes and no counter falls: if the
second call is begun when the first is over, then for every call of its closure that the first has
made the second makes one with the same name and type, and with counters that are no smaller,
whatever is registered and updated before, between and during the two, as long as what all begun
calls add to any counter fits in a word. -/
theorem visits_monotone (host : Host) (before : List Move) (turns turns' : List (Option Move))
    (p q q' : Process) (call call' : VisitCall) (hp : new.run host before = some p)
    (hq : Watch.run (step host) VisitCall.step (p, VisitCall.new) turns = some (q, call))
    (hdone : call.Done)
    (hq' : Watch.run (step host) VisitCall.step (q, VisitCall.new) turns' = some (q', call'))
    (hdone' : call'.Done)
    (hfits : ∀ atomic, begun_amount (before ++ turns.reduceOption ++ turns'.reduceOption)
      (before ++ turns.reduceOption ++ turns'.reduceOption).length atomic ≤ U64_MAX) :
    ∀ name metric_type seen, (name, metric_type, seen) ∈ call.reported →
      ∃ seen', (name, metric_type, seen') ∈ call'.reported
        ∧ ∀ counter : Counter, (seen.of counter).toNat ≤ (seen'.of counter).toNat := by
  have hmiddle := run_watched hp hq
  have hall := run_watched hmiddle hq'
  obtain ⟨_, r, time, -, hrecords⟩ := exists_records hall
  obtain ⟨sturns, hs⟩ := exists_unvisited hp
  have hinv := visit_inv hp hq (List.prefix_append _ turns'.reduceOption) hall hs rfl (v := 0) rfl
  -- the second visitor goes along with the shards that the first has left
  obtain ⟨after, t, hafter, hlanes, hvisitor, hnew⟩ :=
    hinv.shadows.exists_next hs Nat.one_ne_zero rfl
  rw [moment_beginning hmiddle (List.prefix_append _ _)] at hlanes
  have hinv' := visit_inv hmiddle hq' List.prefix_rfl hall hafter hlanes hnew
  have hlater := hinv'.shadows.grows hafter hvisitor hdone.1 hnew hdone'.1
  intro name metric_type seen hseen
  obtain ⟨⟨m, row⟩, hrow, hcallback⟩ := List.mem_flatMap.mp hseen
  -- the entry is reported again
  have hm := hlater.subset ((hinv.entries_done hdone).symm.subset (List.mem_map_of_mem hrow))
  obtain ⟨⟨m', row'⟩, hrow', heq⟩ := List.mem_map.mp ((hinv'.entries_done hdone').subset hm)
  obtain rfl : m' = m := heq
  obtain ⟨rfl, hcallback'⟩ := callbacks_snapshot hcallback row'
  have htaken := hinv.taken _ hrow
  have htaken' := hinv'.taken _ hrow'
  exact ⟨row', List.mem_flatMap.mpr ⟨_, hrow', hcallback'⟩, fun counter =>
    hrecords.taken_mono le_rfl le_rfl htaken htaken' hfits counter⟩

set_option maxRecDepth 4000 in
theorem queue_visited_monotone : ∃ p q q' call call',
    new.run Host.seedless queue_counted = some p
    ∧ Watch.run (step Host.seedless) VisitCall.step (p, VisitCall.new) queue_visited
        = some (q, call)
    ∧ Watch.run (step Host.seedless) VisitCall.step (q, VisitCall.new) (List.replicate 137 none)
        = some (q', call')
    ∧ ∀ seen, ("queue", "LOG", seen) ∈ call.reported →
      ∃ seen', ("queue", "LOG", seen') ∈ call'.reported
        ∧ (seen.of .Total).toNat ≤ (seen'.of .Total).toNat := by
  obtain ⟨p, q, call, hp, -, hq, hdone⟩ := queue_visits
  have hover : (((new.run Host.seedless queue_counted).bind (fun p =>
      Watch.run (step Host.seedless) VisitCall.step (p, VisitCall.new) queue_visited)).bind
        (fun x => Watch.run (step Host.seedless) VisitCall.step (x.1, VisitCall.new)
          (List.replicate 137 none))).map
        (fun x => (x.2.visitor.shard, x.2.loading.isNone)) = some (64, true) := by rfl
  rw [hp, Option.bind_some, hq, Option.bind_some] at hover
  obtain ⟨⟨q', call'⟩, hq', hdone'⟩ := Option.map_eq_some_iff.mp hover
  obtain ⟨hshard, hloading⟩ := Prod.mk.inj hdone'
  have hmono := visits_monotone Host.seedless queue_counted queue_visited (List.replicate 137 none)
    p q q' call call' hp hq hdone hq' ⟨hshard, Option.isNone_iff_eq_none.mp hloading⟩
    (fun atomic => queue_visited_fits 137 _ atomic)
  refine ⟨p, q, q', call, call', hp, hq, hq', fun seen hseen => ?_⟩
  obtain ⟨seen', hseen', hle⟩ := hmono "queue" "LOG" seen hseen
  exact ⟨seen', hseen', hle .Total⟩

end Process

end BrzMetrics
