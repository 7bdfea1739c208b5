/-
A reader that is built while everything goes on.

`PrometheusReader::new` traverses the timing shards, then the scalar shards, and then
takes the states, while other threads register, record and build readers of their
own. So a reader is no snapshot of the registry at any moment. But it is not arbitrary
either: what it has captured of a shard is the beginning of the shard's registration
order, with everything in it that some thread had a handle to when the construction
began (`Process.Captures`). Since that is a selection of the entries of a well-formed
registry, the output is as well-formed as that of a reader built at rest
(`Process.built_reader_exports`).
-/
import BrzMetrics.WaitFree
import BrzMetrics.Labels
import BrzMetrics.Scrapes

set_option autoImplicit false

namespace BrzMetrics

open KeyedStore Linearize TextFormat

/-! ## The sections of a process as a registry -/

/-- The handles issued and the registry that is left when sections run one after the other. -/
def Host.replay (self : Host) (order : List Section) : List Issued × Registry :=
  (order.map Effect.op).foldl Access.perform
    ([], Registry.new self.shard_hasher self.scalar_hasher)

namespace Process

variable {host : Host} {p q : Process}

/-- A history of a process is its sections, at every point. -/
theorem Represented.state {history : History} (h : p.Represented host history) (n : ℕ) :
    history.state n = host.replay (p.order.take n) := by
  rw [History.state, h.accesses, h.shard_hasher, h.scalar_hasher, Host.replay, List.map_take]

/-- The states of a process are those of the sections that have been performed. -/
theorem replay_order {schedule : List Move} (hs : new.run host schedule = some p) :
    host.replay p.order = (p.order.filterMap issued_by, p.registry host) :=
  perform_legal (AtomicObject.inv_new.steps (run_steps hs).2).legal

/-- Registration orders are determined by the registry. -/
theorem orders_unique {r : Registry} {logs logs' : Fin SHARD_COUNT → List MetricMeta}
    {scalars scalars' : Fin SHARD_COUNT → List ScalarMeta} (h : r.Inv logs scalars)
    (h' : r.Inv logs' scalars') : logs = logs' ∧ scalars = scalars' := by
  constructor
  · funext i
    have hlog := (h.shards i).holds.store.for_each
    rw [(h'.shards i).holds.store.for_each] at hlog
    exact (Option.some.inj hlog).symm
  · funext i
    have hlog := (h.scalars.shards i).holds.store.for_each
    rw [(h'.scalars.shards i).holds.store.for_each] at hlog
    exact (Option.some.inj hlog).symm

/-- The entries of a process are those of a history of it. -/
theorem Represented.store {history : History} (hrep : p.Represented host history)
    {schedule : List Move} (hs : new.run host schedule = some p) :
    ∃ store, history.Reached p.order.length p.timing.orders p.scalars.orders store := by
  obtain ⟨logs, scalars, store, hreached⟩ := history.reached p.order.length
  have hinv := hreached.represents.inv
  rw [hrep.registry] at hinv
  obtain ⟨rfl, rfl⟩ := orders_unique hinv (run_steps hs).1.inv
  exact ⟨store, hreached⟩

theorem exists_store {schedule : List Move} (hs : new.run host schedule = some p) :
    ∃ history store, p.Represented host history
      ∧ history.Reached p.order.length p.timing.orders p.scalars.orders store := by
  obtain ⟨history, hrep⟩ := exists_history hs
  obtain ⟨store, hreached⟩ := hrep.store hs
  exact ⟨history, store, hrep, hreached⟩

/-! ## What a reader has been built from -/

/-- A reader whose construction has not begun. -/
structure Unbegun (v : ℕ) (p : Process) : Prop where
  timing : p.timing.visitors v = Visitor.new
  scalars : p.scalars.visitors v = Visitor.new

/-- What is known of a reader that has been built since `p`: its traversals are over, it has kept
what they visited, and the states are those after some section in between. -/
def BuiltSince (host : Host) (p : Process) (v : ℕ) (q : Process) : Prop :=
  ∀ reader, q.readers v = some reader →
    (q.timing.visitors v).Done ∧ (q.scalars.visitors v).Done
      ∧ ∃ m order, p.order.length ≤ m ∧ m ≤ q.order.length
        ∧ reader = PrometheusReader.start (kept host.layout
            (captured (traversed (q.timing.visitors v)) (traversed (q.scalars.visitors v))))
          ((host.replay (q.order.take m)).2.state_snapshot order)

/-- A move leaves what has been performed, and a traversal that is over, as they were. -/
theorem Happens.stays {move : Move} (h : p.Happens host move q) :
    p.order <+: q.order
      ∧ (∀ v, (p.timing.visitors v).Done → q.timing.visitors v = p.timing.visitors v)
      ∧ ∀ v, (p.scalars.visitors v).Done → q.scalars.visitors v = p.scalars.visitors v := by
  have htiming : ∀ {turn : Turn ProfileMeta} {timing : Traversals Shard MetricMeta TimingKey},
      p.timing.step host.timing_route turn = some timing →
      ∀ v, (p.timing.visitors v).Done → timing.visitors v = p.timing.visitors v := by
    intro turn timing hstep v hdone
    rcases Traversals.step_visitor hstep v with ⟨-, hvisit⟩ | ⟨-, hsame⟩
    · rw [Visitor.step, dif_neg (by rw [hdone]; exact lt_irrefl _)] at hvisit
      cases hvisit
    · exact hsame
  have hscalars : ∀ {turn : Turn ScalarShard.Request}
      {scalars : Traversals ScalarShard ScalarMeta ScalarKey},
      p.scalars.step host.scalar_route turn = some scalars →
      ∀ v, (p.scalars.visitors v).Done → scalars.visitors v = p.scalars.visitors v := by
    intro turn scalars hstep v hdone
    rcases Traversals.step_visitor hstep v with ⟨-, hvisit⟩ | ⟨-, hsame⟩
    · rw [Visitor.step, dif_neg (by rw [hdone]; exact lt_irrefl _)] at hvisit
      cases hvisit
    · exact hsame
  cases h with
  | lock_timing _ _ _ timing _ _ hstep =>
    exact ⟨List.prefix_append _ _, htiming hstep, fun _ _ => rfl⟩
  | lock_scalar _ _ _ scalars _ _ hstep =>
    exact ⟨List.prefix_append _ _, fun _ _ => rfl, hscalars hstep⟩
  | lock_states _ _ _ _ _ _ => exact ⟨List.prefix_append _ _, fun _ _ => rfl, fun _ _ => rfl⟩
  | access_timing _ _ _ _ timing _ hstep | unlock_timing _ _ _ _ timing _ hstep
  | visit_timing _ _ timing hstep =>
    exact ⟨List.prefix_rfl, htiming hstep, fun _ _ => rfl⟩
  | access_scalar _ _ _ _ scalars _ hstep | unlock_scalar _ _ _ _ scalars _ hstep
  | visit_scalars _ _ scalars _ hstep =>
    exact ⟨List.prefix_rfl, fun _ _ => rfl, hscalars hstep⟩
  | call _ _ _ | enter _ _ _ _ | unlock_states _ _ _ _ | update _ _ _ _ | apply_last _ _
  | apply _ _ _ _ | built _ _ _ _ _ _ =>
    exact ⟨List.prefix_rfl, fun _ _ => rfl, fun _ _ => rfl⟩

/-- Only the last move of its construction makes a reader. -/
theorem Happens.reader {move : Move} (h : p.Happens host move q) {v : ℕ}
    {reader : PrometheusReader} (hreader : q.readers v = some reader) :
    p.readers v = some reader
      ∨ (q.timing = p.timing ∧ q.scalars = p.scalars ∧ q.order = p.order)
        ∧ ¬ (p.timing.visitors v).shard < SHARD_COUNT
        ∧ ¬ (p.scalars.visitors v).shard < SHARD_COUNT
        ∧ ∃ order, reader = PrometheusReader.start (kept host.layout
            (captured (traversed (p.timing.visitors v)) (traversed (p.scalars.visitors v))))
          (p.states.snapshot order) := by
  cases h with
  | built w order hdone hdone' hnew hfree =>
    dsimp only at hreader
    by_cases hw : v = w
    · subst hw
      rw [Function.update_self, Option.some.injEq] at hreader
      exact .inr ⟨⟨rfl, rfl, rfl⟩, hdone, hdone', order, hreader.symm⟩
    · rw [Function.update_of_ne hw] at hreader
      exact .inl hreader
  | _ => exact .inl hreader

/-- A reader built by a later move has been built since. -/
theorem BuiltSince.happens {v : ℕ} {schedule : List Move} {r : Process} {move : Move}
    (h : BuiltSince host p v q) (hlength : p.order.length ≤ q.order.length)
    (hs : new.run host schedule = some q) (hmove : q.Happens host move r) :
    BuiltSince host p v r := by
  intro reader hreader
  obtain ⟨horder, htiming, hscalars⟩ := hmove.stays
  rcases hmove.reader hreader with hold | ⟨⟨hq, hq', hqorder⟩, hdone, hdone', order, rfl⟩
  · obtain ⟨hdone, hdone', m, order, hm, hm', heq⟩ := h reader hold
    refine ⟨?_, ?_, m, order, hm, hm'.trans horder.length_le, ?_⟩
    · rw [htiming v hdone]
      exact hdone
    · rw [hscalars v hdone']
      exact hdone'
    · obtain ⟨rest, hrest⟩ := horder
      rw [htiming v hdone, hscalars v hdone', ← hrest, List.take_append_of_le_length hm']
      exact heq
  · obtain ⟨turns, hturns⟩ := (run_steps hs).1.timing
    obtain ⟨turns', hturns'⟩ := (run_steps hs).1.scalars
    obtain ⟨ps, hinv⟩ := Traversals.run_inv hturns
    obtain ⟨ps', hinv'⟩ := Traversals.run_inv hturns'
    rw [hq, hq', hqorder]
    refine ⟨(hinv.visitors v).shard_le.antisymm (not_lt.mp hdone),
      (hinv'.visitors v).shard_le.antisymm (not_lt.mp hdone'), q.order.length, order, hlength,
      le_refl _, ?_⟩
    -- the states are taken when the mutex is free, after the sections so far
    rw [List.take_length, replay_order hs]
    rfl

/-- Two runs, one after the other. -/
theorem run_append {before after : List Move} {r : Process} (hq : p.run host before = some q)
    (hr : q.run host after = some r) : p.run host (before ++ after) = some r := by
  rw [run] at hq ⊢
  rw [List.foldlM_append, hq]
  exact hr

/-- Along a run, from where the construction has not ended. -/
theorem builtSince_run {v : ℕ} {before after : List Move}
    (hp : new.run host before = some p) (hq : p.run host after = some q)
    (hnew : p.readers v = none) : BuiltSince host p v q ∧ p.order <+: q.order := by
  induction after using List.reverseRecOn generalizing q with
  | nil =>
    obtain rfl : p = q := Option.some.inj hq
    refine ⟨fun reader hreader => ?_, List.prefix_rfl⟩
    rw [hnew] at hreader
    cases hreader
  | append_singleton after move ih =>
    rw [run, List.foldlM_append] at hq
    obtain ⟨r, hr, hmove⟩ := Option.bind_eq_some_iff.mp hq
    simp only [List.foldlM_cons, List.foldlM_nil, bind_pure] at hmove
    obtain ⟨hsince, hprefix⟩ := ih hr
    have hhappens := step_happens hmove
    exact ⟨hsince.happens hprefix.length_le (run_append hp hr) hhappens,
      hprefix.trans hhappens.stays.1⟩

/-! ## What has been captured -/

/-- Entries as those of the keyed store. -/
def registered (timing : List MetricMeta) (scalars : List ScalarMeta) : List Registered :=
  timing.map MetricMeta.registered ++ scalars.map ScalarMeta.registered

/-- What a reader that was begun after `p` and built before `q` has captured. -/
structure Captures (p q : Process) (history : History) (timing : List MetricMeta)
    (scalars : List ScalarMeta) : Prop where
  /-- Every entry is that of a registration which has taken its mutex. -/
  origin : ∀ e ∈ registered timing scalars, ∃ op handle,
    (op, handle) ∈ history.issued q.order.length ∧ op.Checked ∧ e = op.returned handle.slot
  keys_nodup : ((registered timing scalars).map Entry.key).Nodup
  slots_nodup : ((registered timing scalars).map Entry.slot).Nodup
  /-- The slots that threads had handles to before it was begun are captured. -/
  complete : ∀ handle ∈ p.returned, ∃ op, history.Returned op handle
    ∧ ∃ e ∈ registered timing scalars, e.key = op.key ∧ e.slot = handle.slot
  consistent : ∀ view, (∃ s ∈ captured timing scalars, s.view = view) → view.Consistent

/-- What a traversal has visited is a selection of the entries. -/
theorem traversed_sublist {σ T C K : Type} [ShardKind σ T C K] [DecidableEq K]
    {route : K → Fin SHARD_COUNT} {turns : List (Turn C)} {s : Traversals σ T K}
    (hs : Traversals.new.run route turns = some s) (v : ℕ) :
    (traversed (s.visitors v)).Sublist (flat s.orders) := by
  refine List.Sublist.flatMap_right _ (fun i _ => List.IsPrefix.sublist ?_)
  exact ((Traversals.sound σ route).beginning turns s hs i).2.2 v

/-- The keys of returned calls are among those that a later traversal has visited. -/
theorem exists_traversed {σ T C K : Type} [ShardKind σ T C K] [DecidableEq K]
    {route : K → Fin SHARD_COUNT} {turns turns' : List (Turn C)} {s s' : Traversals σ T K}
    (hs : Traversals.new.run route turns = some s) (hs' : s.run route turns' = some s') {v : ℕ}
    (hnew : s.visitors v = Visitor.new) (hdone : (s'.visitors v).Done) {k : K}
    {i : Fin SHARD_COUNT} (hk : k ∈ s.returned i) :
    ∃ entry ∈ traversed (s'.visitors v), ShardKind.key σ entry = k := by
  have hmem := (Traversals.sound σ route).returned turns turns' s s' hs hs' v i
    (by rw [hnew]; exact Visitor.pending_new i) (by rw [Visitor.Finished, hdone]; exact i.isLt) k hk
  obtain ⟨entry, hentry, hkey⟩ := List.mem_map.mp hmem
  exact ⟨entry, mem_flat.mpr ⟨i, hentry⟩, hkey⟩

/-- The keys of returned calls are among the entries, whatever has happened since. -/
theorem exists_entry {σ T C K : Type} [ShardKind σ T C K] [DecidableEq K]
    {route : K → Fin SHARD_COUNT} {turns turns' : List (Turn C)} {s s' : Traversals σ T K}
    (hs : Traversals.new.run route turns = some s) (hs' : s.run route turns' = some s') {k : K}
    {i : Fin SHARD_COUNT} (hk : k ∈ s.returned i) :
    ∃ entry ∈ flat s'.orders, ShardKind.key σ entry = k := by
  obtain ⟨ps, h⟩ := Traversals.run_inv hs
  obtain ⟨_, _, hgrow⟩ := h.run hs'
  obtain ⟨entry, hentry, hkey⟩ := List.mem_map.mp ((h.lanes i).returned k hk)
  exact ⟨entry, mem_flat.mpr ⟨i, (hgrow i).subset (List.mem_of_mem_take hentry)⟩, hkey⟩

/-- A traversal that is begun when another is over visits what that one has visited. -/
theorem traversed_grows {σ T C K : Type} [ShardKind σ T C K] [DecidableEq K]
    {route : K → Fin SHARD_COUNT} {turns turns' : List (Turn C)} {s s' : Traversals σ T K}
    (hs : Traversals.new.run route turns = some s) (hs' : s.run route turns' = some s') {v w : ℕ}
    (hdone : (s.visitors v).Done) (hnew : s.visitors w = Visitor.new)
    (hdone' : (s'.visitors w).Done) :
    (traversed (s.visitors v)).Sublist (traversed (s'.visitors w)) := by
  refine List.Sublist.flatMap_right _ (fun i _ => List.IsPrefix.sublist ?_)
  exact (Traversals.sound σ route).later turns turns' s s' hs hs' v w hdone hnew hdone' i

/-- A call that has returned a handle has registered its key. -/
theorem returned_key {before : List Move} (hp : new.run host before = some p) {handle : Handle}
    (hhandle : handle ∈ p.returned) :
    ∃ op, (op, handle) ∈ p.order.filterMap issued_by
      ∧ ((∃ i k, k ∈ p.timing.returned i ∧ op.key = .timing k)
        ∨ ∃ i k, k ∈ p.scalars.returned i ∧ op.key = .scalar k) := by
  obtain ⟨op, hop, hkey⟩ := ((owned_new host).run hp).returned handle hhandle
  refine ⟨op, hop, ?_⟩
  rw [Registration.place] at hkey
  cases htarget : op.target with
  | inl profile =>
    rw [htarget] at hkey
    obtain ⟨k, hk, heq⟩ := List.mem_map.mp hkey
    exact .inl ⟨_, k, hk, heq.symm⟩
  | inr request =>
    rw [htarget] at hkey
    obtain ⟨k, hk, heq⟩ := List.mem_map.mp hkey
    exact .inr ⟨_, k, hk, heq.symm⟩

/-- What selections of the entries capture that have all keys which were returned before. -/
theorem captures_of {before : List Move} {history : History}
    {store : Store StoreKey Metadata SlotPtr} {timing : List MetricMeta} {scalars : List ScalarMeta}
    (hp : new.run host before = some p) (hrep : q.Represented host history)
    (hreached : history.Reached q.order.length q.timing.orders q.scalars.orders store)
    (horder : p.order <+: q.order) (htiming : timing.Sublist (flat q.timing.orders))
    (hscalars : scalars.Sublist (flat q.scalars.orders))
    (hkeys : ∀ i, ∀ k ∈ p.timing.returned i, ∃ m ∈ timing, ShardKind.key Shard m = k)
    (hkeys' : ∀ i, ∀ k ∈ p.scalars.returned i, ∃ m ∈ scalars, ShardKind.key ScalarShard m = k) :
    Captures p q history timing scalars := by
  have hsub : (registered timing scalars).Sublist
      (registered (flat q.timing.orders) (flat q.scalars.orders)) :=
    (htiming.map _).append (hscalars.map _)
  have horigin : ∀ e ∈ registered timing scalars, ∃ op handle,
      (op, handle) ∈ history.issued q.order.length ∧ op.Checked ∧ e = op.returned handle.slot :=
    fun e he => hreached.origin e (hsub.subset he)
  refine ⟨horigin, ?_, ?_, fun handle hhandle => ?_, fun view hview => ?_⟩
  · exact ((hreached.represents.listed.map Entry.key).nodup_iff.mpr store.keys_nodup).sublist
      (hsub.map _)
  · exact ((hreached.represents.listed.map Entry.slot).nodup_iff.mpr store.slots_nodup).sublist
      (hsub.map _)
  · obtain ⟨op, hop, hkey⟩ := returned_key hp hhandle
    have hreturned : history.Returned op handle := by
      refine ⟨q.order.length, ?_⟩
      rw [hrep.issued]
      exact (horder.filterMap issued_by).subset hop
    -- an entry with the key of the handle has been selected
    have hentry : ∃ e ∈ registered timing scalars, e.key = op.key := by
      rcases hkey with ⟨i, k, hk, heq⟩ | ⟨i, k, hk, heq⟩
      · obtain ⟨entry, hvisited, rfl⟩ := hkeys i k hk
        exact ⟨entry.registered, List.mem_append_left _ (List.mem_map_of_mem hvisited), heq.symm⟩
      · obtain ⟨entry, hvisited, rfl⟩ := hkeys' i k hk
        exact ⟨entry.registered, List.mem_append_right _ (List.mem_map_of_mem hvisited), heq.symm⟩
    obtain ⟨e, he, hkey⟩ := hentry
    obtain ⟨op', handle', hissued, -, rfl⟩ := horigin e he
    -- and keys tell slots apart, so it is the entry of the handle
    have hreturned' : history.Returned op' handle' := ⟨_, hissued⟩
    exact ⟨op, hreturned, _, he, hkey, (hreturned'.slot_eq_iff hreturned).mpr hkey⟩
  · rcases exists_captured.mp hview with ⟨m, hm, hv⟩ | ⟨m, hm, rfl⟩
    · exact m.views_consistent (hreached.timing_checked m (htiming.subset hm)) view hv
    · exact m.view_consistent (hreached.scalar_checked m (hscalars.subset hm))

/-- A reader has captured entries of the registry, among them all that were returned before it was
begun. -/
theorem captures {before after : List Move} {v : ℕ} {history : History}
    {store : Store StoreKey Metadata SlotPtr} (hp : new.run host before = some p)
    (hq : p.run host after = some q) (hnew : p.Unbegun v)
    (hdone : (q.timing.visitors v).Done) (hdone' : (q.scalars.visitors v).Done)
    (hrep : q.Represented host history)
    (hreached : history.Reached q.order.length q.timing.orders q.scalars.orders store)
    (horder : p.order <+: q.order) :
    Captures p q history (traversed (q.timing.visitors v)) (traversed (q.scalars.visitors v)) := by
  obtain ⟨turns, hturns⟩ := (run_steps (run_append hp hq)).1.timing
  obtain ⟨turns', hturns'⟩ := (run_steps (run_append hp hq)).1.scalars
  obtain ⟨before, before', hbefore, hbefore', -⟩ := run_turns hp
  obtain ⟨after, after', hafter, hafter', -⟩ := run_turns hq
  exact captures_of hp hrep hreached horder (traversed_sublist hturns v)
    (traversed_sublist hturns' v)
    (fun i k hk => exists_traversed hbefore hafter hnew.timing hdone hk)
    (fun i k hk => exists_traversed hbefore' hafter' hnew.scalars hdone' hk)

/-- No two lines of an exposition are the same series, where views are consistent. -/
theorem exposition_series_nodup (layout : Layout) (sources : List Source)
    (h : ∀ view, (∃ s ∈ sources, s.view = view) → view.Consistent) (f64 : F64)
    (states : StateRegistry) (order : IterOrder) :
    ((exposition f64 (kept layout sources) (states.snapshot order)).filterMap
      Line.series).Nodup := by
  have hstates : ∀ family : Family, family.name ≠ "brz_rpc_state" := by decide
  have hname : ∀ {family : Family} {series : String × Finset (List UInt8)},
      series ∈ family_series (kept layout sources) family → series.1 = family.name := by
    intro family series hseries
    obtain ⟨view, -, rfl⟩ := List.mem_map.mp hseries
    rfl
  rw [exposition_series]
  refine List.Nodup.append (List.nodup_flatMap.mpr
    ⟨fun family _ => family_series_nodup layout sources family h, ?_⟩)
    (state_series_nodup f64 states order) ?_
  · -- the families and the states differ in their names
    refine (List.nodup_finRange _).imp (fun {a b} hab series ha hb => ?_)
    exact hab (Family.name_injective ((hname ha).symm.trans (hname hb)))
  · intro series ha hb
    obtain ⟨family, -, ha⟩ := List.mem_flatMap.mp ha
    rw [state_lines, List.filterMap_flatMap] at hb
    obtain ⟨s, -, hb⟩ := List.mem_flatMap.mp hb
    obtain ⟨f, -, rfl⟩ := List.mem_map.mp ((field_series_sublist f64 s _).mem hb)
    exact hstates family (hname ha).symm

/-- Every captured source has a sample in each family that its kind supports, with the value of
all slots that are captured under its view. -/
theorem sample_of_source (layout : Layout) {sources : List Source} (f64 : F64) (env : ℕ → Memory)
    (states : List StateSnapshot) {s : Source} (hs : s ∈ sources) {family : Family}
    (hsupports : s.kind.supports family.val = true) :
    ∃ i items, items.Nodup ∧ items.toFinset = view_slots sources s.view
      ∧ Entry.sample family.name s.view.labels (sample_value (env i) family items)
        ∈ entries env 0 (exposition f64 (kept layout sources) states) := by
  obtain ⟨⟨view, items⟩, hgroup, rfl⟩ := List.mem_map.mp
    ((mem_family_groups layout sources family s.view).mpr ⟨⟨s, hs, rfl⟩, hsupports⟩)
  obtain ⟨hnodup, hslots⟩ := group_items layout sources family _ hgroup
  obtain ⟨i, hsample⟩ := sample_of_group hgroup f64 env states
  exact ⟨i, items, hnodup, hslots, hsample⟩

/-- A reader whose traversals have not begun has not been built. -/
theorem Unbegun.reader {before : List Move} {v : ℕ} (h : p.Unbegun v)
    (hp : new.run host before = some p) : p.readers v = none := by
  have hsince := (builtSince_run (v := v) (show new.run host [] = some new from rfl) hp rfl).1
  rw [Option.eq_none_iff_forall_ne_some]
  intro reader hreader
  obtain ⟨hdone, -⟩ := hsince reader hreader
  rw [h.timing] at hdone
  exact absurd (show (0 : ℕ) = SHARD_COUNT from hdone) (by decide)

/-- What a reader exports that is built while everything goes on. In every run of a process: if a
reader is begun after some moment and built before another, whatever any threads do in between, then
its sources are views of entries that belong to the registry of the process, each key and each slot
once; they include the entry behind every handle that some thread had when the construction began;
and its states are those of one moment of the construction. For all counter values while it is read,
its output parses, to entries of which no two are one series, and each captured view has its sample
in the families of its kind, with all captured slots of the view in it. -/
theorem built_reader_exports (host : Host) (before after : List Move) (p q : Process)
    (hp : new.run host before = some p) (hq : p.run host after = some q) (v : ℕ)
    (hnew : p.Unbegun v) (reader : PrometheusReader) (hbuilt : q.readers v = some reader) :
    ∃ history timing scalars m order, q.Represented host history
      ∧ p.order.length ≤ m ∧ m ≤ q.order.length
      ∧ reader = PrometheusReader.start (kept host.layout (captured timing scalars))
          ((history.registry m).state_snapshot order)
      ∧ Captures p q history timing scalars
      ∧ ∀ f64 env, ∃ es : List Entry, Streams f64 env 0 reader (es.map Entry.encode)
        ∧ parse (es.map Entry.encode).flatten = some es
        ∧ (es.filterMap Entry.series).Nodup
        ∧ ∀ s ∈ captured timing scalars, ∀ family : Family, s.kind.supports family.val = true →
          ∃ i items, items.Nodup ∧ items.toFinset = view_slots (captured timing scalars) s.view
            ∧ Entry.sample family.name s.view.labels (sample_value (env i) family items) ∈ es := by
  obtain ⟨history, store, hrep, hreached⟩ := exists_store (run_append hp hq)
  obtain ⟨hsince, horder⟩ := builtSince_run hp hq (hnew.reader hp)
  obtain ⟨hdone, hdone', m, order, hm, hm', rfl⟩ := hsince reader hbuilt
  have hcaptures := captures hp hq hnew hdone hdone' hrep hreached horder
  have hstates : (host.replay (q.order.take m)).2 = history.registry m := by
    rw [← hrep.state m]
    rfl
  refine ⟨history, _, _, m, order, hrep, hm, hm', by rw [hstates], hcaptures, fun f64 env => ?_⟩
  have hwell := entries_wellFormed env 0 (exposition_known f64 (kept host.layout
    (captured (traversed (q.timing.visitors v)) (traversed (q.scalars.visitors v))))
    ((host.replay (q.order.take m)).2.state_snapshot order))
  refine ⟨_, streams_start host.layout _ _, ?_, ?_, fun s hs family hsupports =>
    sample_of_source host.layout f64 env _ hs hsupports⟩
  · rw [← List.flatMap_def]
    exact parse_encode hwell
  · rw [entries_series]
    exact exposition_series_nodup host.layout _ hcaptures.consistent f64 _ order

/-- A thread registers a queue. -/
def queue_first : List Move :=
  [.call 0 (.log "queue"), .enter 0, .lock 0, .access 0, .access 0, .access 0, .access 0, .access 0,
    .access 0, .unlock 0]

/-- A reader is built, while another thread begins to register a gauge. -/
def reader_next : List Move :=
  List.replicate 3 (.read 0 .stored)
    ++ [.call 1 (.gauge_new .Log "depth"), .enter 1, .lock 1, .access 1]
    ++ List.replicate 257 (.read 0 .stored)

set_option maxRecDepth 4000 in
theorem queue_exported : ∃ p q reader, new.run Host.seedless queue_first = some p
    ∧ p.run Host.seedless reader_next = some q ∧ q.readers 0 = some reader
    ∧ p.returned = [.metric queue]
    ∧ ∃ history timing scalars, Captures p q history timing scalars := by
  obtain ⟨p, hp⟩ := Option.isSome_iff_exists.mp
    (show (new.run Host.seedless queue_first).isSome = true by rfl)
  obtain ⟨reader, hreader⟩ := Option.isSome_iff_exists.mp
    (show ((new.run Host.seedless queue_first).bind (fun p =>
      (p.run Host.seedless reader_next).bind (fun q => q.readers 0))).isSome = true by rfl)
  have hreturned : (new.run Host.seedless queue_first).map returned = some [.metric queue] := by rfl
  have hshards : (new.run Host.seedless queue_first).map
      (fun p => (p.timing.visitors, p.scalars.visitors))
      = some (fun _ => Visitor.new, fun _ => Visitor.new) := by rfl
  rw [hp] at hreader hreturned hshards
  rw [Option.bind_some] at hreader
  obtain ⟨q, hq, hreader⟩ := Option.bind_eq_some_iff.mp hreader
  obtain ⟨htiming, hscalars⟩ := Prod.mk.inj (Option.some.inj hshards)
  obtain ⟨history, timing, scalars, -, -, -, -, -, -, hcaptures, -⟩ :=
    built_reader_exports Host.seedless _ _ p q hp hq 0
      ⟨congrFun htiming 0, congrFun hscalars 0⟩ reader hreader
  exact ⟨p, q, reader, hp, hq, hreader, Option.some.inj hreturned, history, timing, scalars,
    hcaptures⟩

end Process

end BrzMetrics
