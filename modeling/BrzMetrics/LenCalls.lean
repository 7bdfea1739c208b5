/-
`len` beside a running process.

`Registry::len` of `src/src/registry.rs` reads no entry: shard by shard it loads the
index and adds up the published lengths of its chunks, first those of the scalar
shards (`ScalarRegistry::len`) and then those of the timing shards. A `LenCall` is
such a call, one load at a time, as an observer of a process in which any threads
register meanwhile. On shards that nobody changes the loads amount to `Registry.len`
(`ScalarRegistry.len_steps`, `Registry.len_steps`).

A sum goes along with a traversal that reads every entry whose chunk it adds up
(`LenSum.Counts`), so what is known of traversals bounds it: a call counts at least
the slots of the handles that were there when it began, at most those that have been
given out when it is over, and never fewer than a call before it (`len_between`,
`len_monotone`).
-/
import BrzMetrics.VisitCalls

set_option autoImplicit false

namespace BrzMetrics

open ChunkLog KeyedStore

/-! ## The call -/

/-- A sum of published lengths: the shard it is at, the chunks of its index that are yet to be added
(`none` before the index has been loaded), and what has been added. -/
structure LenSum where
  shard : ℕ
  chunks : Option (List ℕ)
  sum : ℕ

namespace LenSum

/-- A sum that has not begun. -/
def new : LenSum := { shard := 0, chunks := none, sum := 0 }

/-- One load. -/
def step {T : Type} (stores : Fin SHARD_COUNT → Chunks T) (self : LenSum) : Option LenSum :=
  if h : self.shard < SHARD_COUNT then
    let shard : Fin SHARD_COUNT := ⟨self.shard, h⟩
    match self.chunks with
    | none => some { self with chunks := some (stores shard).index }
    | some [] => some { self with shard := self.shard + 1, chunks := none }
    | some (arc :: rest) =>
      some { self with
        chunks := some rest
        sum := self.sum + ((stores shard).deref arc).published_len }
  else none

/-- All shards have been added up. -/
def Done (self : LenSum) : Prop := self.shard = SHARD_COUNT

end LenSum

/-- A call of `len`. -/
structure LenCall where
  scalars : LenSum
  timing : LenSum

namespace LenCall

/-- A call that has just begun. -/
def new : LenCall := { scalars := LenSum.new, timing := LenSum.new }

/-- One load of the call. -/
def step (p : Process) (self : LenCall) : Option LenCall :=
  if self.scalars.shard < SHARD_COUNT then
    (self.scalars.step (fun i => ShardKind.store (p.scalars.lanes i).shard)).map (fun scalars =>
      { self with scalars := scalars })
  else
    (self.timing.step (fun i => ShardKind.store (p.timing.lanes i).shard)).map (fun timing =>
      { self with timing := timing })

/-- The call is over. -/
def Done (self : LenCall) : Prop := self.scalars.Done ∧ self.timing.Done

/-- What it returns. -/
def len (self : LenCall) : ℕ := self.scalars.sum + self.timing.sum

end LenCall

/-! ## A sum that nothing disturbs -/

namespace LenSum

variable {T : Type} {stores : Fin SHARD_COUNT → Chunks T}

/-- The sum gets from one position to the other with the shards as they are. -/
def Reaches (stores : Fin SHARD_COUNT → Chunks T) : LenSum → LenSum → Prop :=
  Relation.ReflTransGen (fun s s' => s.step stores = some s')

/-- Adding up chunks. -/
theorem reaches_chunks {i : Fin SHARD_COUNT} {rest : List ℕ} {sum : ℕ} :
    Reaches stores ⟨i, some rest, sum⟩
      ⟨i + 1, none, sum + (rest.map (fun arc => ((stores i).deref arc).published_len)).sum⟩ := by
  induction rest generalizing sum with
  | nil =>
    refine .single ?_
    rw [step, dif_pos i.isLt]
    rfl
  | cons arc rest ih =>
    have hstep : step stores ⟨i, some (arc :: rest), sum⟩
        = some ⟨i, some rest, sum + ((stores i).deref arc).published_len⟩ := by
      rw [step, dif_pos i.isLt]
    have hrest := @ih (sum + ((stores i).deref arc).published_len)
    rw [Nat.add_assoc, ← List.sum_cons] at hrest
    exact .head hstep hrest

/-- The rest of a sum, shard by shard. -/
theorem reaches_done {m : ℕ} : ∀ {k sum : ℕ}, k + m = SHARD_COUNT →
    Reaches stores ⟨k, none, sum⟩ ⟨SHARD_COUNT, none, sum
      + (((List.finRange SHARD_COUNT).drop k).map (fun i => (stores i).published_len)).sum⟩ := by
  induction m with
  | zero =>
    intro k sum hk
    obtain rfl : k = SHARD_COUNT := hk
    rw [List.drop_eq_nil_of_le (List.length_finRange).le]
    exact .refl
  | succ m ih =>
    intro k sum hk
    have hlt : k < SHARD_COUNT := by omega
    have hstep : step stores ⟨k, none, sum⟩ = some ⟨k, some (stores ⟨k, hlt⟩).index, sum⟩ := by
      rw [step, dif_pos hlt]
    have hchunks : Reaches stores ⟨k, some (stores ⟨k, hlt⟩).index, sum⟩
        ⟨k + 1, none, sum + (stores ⟨k, hlt⟩).published_len⟩ :=
      @reaches_chunks T stores ⟨k, hlt⟩ _ _
    have hrest := @ih (k + 1) (sum + (stores ⟨k, hlt⟩).published_len) (by omega)
    have hdrop : (List.finRange SHARD_COUNT).drop k
        = ⟨k, hlt⟩ :: (List.finRange SHARD_COUNT).drop (k + 1) := by
      rw [List.drop_eq_getElem_cons (by rwa [List.length_finRange]), List.getElem_finRange]
      rfl
    rw [hdrop, List.map_cons, List.sum_cons, ← Nat.add_assoc]
    exact .head hstep (hchunks.trans hrest)

/-- All shards. -/
theorem reaches_len : Reaches stores new ⟨SHARD_COUNT, none,
    ((List.finRange SHARD_COUNT).map (fun i => (stores i).published_len)).sum⟩ := by
  have h := @reaches_done T stores SHARD_COUNT 0 0 (Nat.zero_add _)
  rwa [List.drop_zero, Nat.zero_add] at h

end LenSum

/-- On shards that nobody changes the loads amount to `ScalarRegistry::len`. -/
theorem ScalarRegistry.len_steps (r : ScalarRegistry) :
    LenSum.Reaches (fun i => (r.shards i).store) LenSum.new ⟨SHARD_COUNT, none, r.len⟩ :=
  LenSum.reaches_len

/-- And after these to `Registry::len`. -/
theorem Registry.len_steps (r : Registry) : ∃ sum,
    LenSum.Reaches (fun i => (r.shards i).store) LenSum.new ⟨SHARD_COUNT, none, sum⟩
      ∧ r.len = r.scalars.len + sum :=
  ⟨_, LenSum.reaches_len, rfl⟩

/-! ## A sum and a traversal -/

/-- What a traversal that is as far as the sum does next. -/
def LenSum.pc (self : LenSum) : VisitorPc :=
  match self.chunks with
  | none => .start
  | some rest => .chunks rest

/-- The sum is as far as a traversal, and has counted what that has visited. -/
structure LenSum.Of {T : Type} (visitor : Visitor T) (added : LenSum) : Prop where
  shard : visitor.shard = added.shard
  pc : visitor.pc = added.pc
  sum : (Process.traversed visitor).length = added.sum

theorem LenSum.of_new {T : Type} : LenSum.new.Of (Visitor.new : Visitor T) := ⟨rfl, rfl, rfl⟩

namespace Traversals

section Lanes

variable {σ T C K : Type} [ShardKind σ T C K] [DecidableEq K] {route : K → Fin SHARD_COUNT}
  {s : Traversals σ T K} {schedule : List (Turn C)} {v : ℕ} {lanes : Fin SHARD_COUNT → Lane σ T K}

/-- A visitor that has loaded the length of a chunk can read its entries. -/
theorem Shadows.read (hs : new.run route schedule = some s) {arc len : ℕ} {rest : List ℕ} {n : ℕ} :
    ∀ {visitor : Visitor T} {offset : ℕ}, s.Shadows C route v lanes visitor →
      visitor.shard < SHARD_COUNT → visitor.pc = .reading arc len offset rest → offset + n = len →
      ∃ visitor', s.Shadows C route v lanes visitor' ∧ visitor'.shard = visitor.shard
        ∧ visitor'.pc = .chunks rest
        ∧ (Process.traversed visitor').length = (Process.traversed visitor).length + n := by
  induction n with
  | zero =>
    intro visitor offset h hlt hpc hoffset
    have hstep : visitor.step (fun i => ShardKind.store (lanes i).shard)
        = some { visitor with pc := .chunks rest } := by
      rw [Visitor.step, dif_pos hlt]
      simp only [hpc]
      rw [if_neg (by omega)]
    exact ⟨_, h.visit hstep, rfl, rfl, rfl⟩
  | succ n ih =>
    intro visitor offset h hlt hpc hoffset
    have ho : offset < len := by omega
    cases hread : Chunks.read (ShardKind.store (lanes ⟨visitor.shard, hlt⟩).shard) arc offset with
    | none =>
      -- the visitor would have met a fault
      have hstep : visitor.step (fun i => ShardKind.store (lanes i).shard)
          = some { visitor with pc := .fault } := by
        rw [Visitor.step, dif_pos hlt]
        simp only [hpc, hread]
        rw [if_pos ho]
      obtain ⟨ps, -, hinv⟩ := (h.visit hstep).inv hs
      exact absurd rfl hinv.no_fault
    | some entry =>
      have hstep : visitor.step (fun i => ShardKind.store (lanes i).shard)
          = some (Visitor.visit ⟨visitor.shard, hlt⟩ entry
            { visitor with pc := .reading arc len (offset + 1) rest }) := by
        rw [Visitor.step, dif_pos hlt]
        simp only [hpc, hread]
        rw [if_pos ho]
      obtain ⟨visitor', h', hshard, hpc', hlength⟩ := ih (h.visit hstep) hlt rfl (by omega)
      have hvisit := (flat_update_append visitor.visited ⟨visitor.shard, hlt⟩ entry).length_eq
      refine ⟨visitor', h', hshard, hpc', hlength.trans ?_⟩
      rw [List.length_append, List.length_singleton] at hvisit
      change (flat (Function.update visitor.visited ⟨visitor.shard, hlt⟩ _)).length + n = _
      rw [hvisit, Process.traversed]
      omega

end Lanes

end Traversals

/-- Beside visitor `v` of a run from `s` on, a traversal has visited as many entries of the shards
`lanes` as the sum has counted. -/
def LenSum.Counts (C : Type) {σ T K : Type} [ShardKind σ T C K] [DecidableEq K]
    (route : K → Fin SHARD_COUNT) (s : Traversals σ T K) (v : ℕ)
    (lanes : Fin SHARD_COUNT → Lane σ T K) (self : LenSum) : Prop :=
  ∃ visitor, s.Shadows C route v lanes visitor ∧ self.Of visitor

namespace LenSum

section Counts

variable {σ T C K : Type} [ShardKind σ T C K] [DecidableEq K] {route : K → Fin SHARD_COUNT}
  {s : Traversals σ T K} {schedule : List (Turn C)} {v : ℕ} {lanes : Fin SHARD_COUNT → Lane σ T K}
  {sum sum' : LenSum}

theorem counts_new (hlanes : s.lanes = lanes) (hv : s.visitors v = Visitor.new) :
    new.Counts C route s v lanes :=
  ⟨_, Traversals.shadows_refl hlanes hv, of_new⟩

/-- A load of the sum is one or more steps of the traversal. -/
theorem Counts.look (h : sum.Counts C route s v lanes)
    (hs : Traversals.new.run route schedule = some s)
    (hstep : sum.step (fun i => ShardKind.store (lanes i).shard) = some sum') :
    sum'.Counts C route s v lanes := by
  obtain ⟨visitor, hshadows, hof⟩ := h
  obtain ⟨shard, chunks, n⟩ := sum
  obtain ⟨hshard, hpc, hsum⟩ := hof
  obtain rfl : visitor.shard = shard := hshard
  unfold step at hstep
  by_cases hlt : visitor.shard < SHARD_COUNT
  swap
  · simp [hlt] at hstep
  rw [dif_pos hlt] at hstep
  rcases chunks with _ | _ | ⟨arc, rest⟩
  · -- the index
    obtain rfl := Option.some.inj hstep
    have hvisit : visitor.step (fun i => ShardKind.store (lanes i).shard)
        = some { visitor with
            pc := .chunks (ShardKind.store (lanes ⟨visitor.shard, hlt⟩).shard).index } := by
      rw [Visitor.step, dif_pos hlt]
      simp only [hpc, pc]
    exact ⟨_, hshadows.visit hvisit, rfl, rfl, hsum⟩
  · -- the next shard
    obtain rfl := Option.some.inj hstep
    have hvisit : visitor.step (fun i => ShardKind.store (lanes i).shard)
        = some { visitor with shard := visitor.shard + 1, pc := .start } := by
      rw [Visitor.step, dif_pos hlt]
      simp only [hpc, pc]
    exact ⟨_, hshadows.visit hvisit, rfl, rfl, hsum⟩
  · -- a chunk, whose entries the traversal reads at once
    obtain rfl := Option.some.inj hstep
    have hvisit : visitor.step (fun i => ShardKind.store (lanes i).shard)
        = some { visitor with
            pc := .reading arc ((ShardKind.store (lanes ⟨visitor.shard, hlt⟩).shard).deref arc
              ).published_len 0 rest } := by
      rw [Visitor.step, dif_pos hlt]
      simp only [hpc, pc]
    obtain ⟨visitor', hshadows', hshard', hpc', hlength⟩ :=
      (hshadows.visit hvisit).read hs hlt rfl (Nat.zero_add _)
    exact ⟨visitor', hshadows', hshard', hpc', hlength.trans (congrArg (· + _) hsum)⟩

end Counts

end LenSum

namespace LenCall

open Process

/-- What holds of a call beside visitor `v` of a run of the scalar shards from `ss` on and of a run
of the timing shards from `ts` on, at the moment `k`. -/
structure Inv (host : Host) (schedule : List Move)
    (ss : Traversals ScalarShard ScalarMeta ScalarKey) (ts : Traversals Shard MetricMeta TimingKey)
    (v k : ℕ) (call : LenCall) : Prop where
  scalars : call.scalars.Counts ScalarShard.Request host.scalar_route ss v
    (moment host schedule k).scalars.lanes
  timing : call.timing.Counts ProfileMeta host.timing_route ts v
    (moment host schedule k).timing.lanes

section Inv

variable {host : Host} {schedule : List Move} {ss : Traversals ScalarShard ScalarMeta ScalarKey}
  {ts : Traversals Shard MetricMeta TimingKey} {sturns : List (Turn ScalarShard.Request)}
  {tturns : List (Turn ProfileMeta)} {v k : ℕ} {call call' : LenCall}

/-- The process goes on. -/
theorem Inv.move (h : call.Inv host schedule ss ts v k) {move : Move}
    (hmove : (moment host schedule k).step host move = some (moment host schedule (k + 1))) :
    call.Inv host schedule ss ts v (k + 1) := by
  obtain ⟨⟨visitor, hshadows, hof⟩, ⟨visitor', hshadows', hof'⟩⟩ := h
  exact ⟨⟨visitor, (step_happens hmove).shadows_scalars hshadows, hof⟩,
    ⟨visitor', (step_happens hmove).shadows_timing hshadows', hof'⟩⟩

/-- The call goes on. -/
theorem Inv.look (h : call.Inv host schedule ss ts v k)
    (hss : Traversals.new.run host.scalar_route sturns = some ss)
    (hts : Traversals.new.run host.timing_route tturns = some ts)
    (hlook : call.step (moment host schedule k) = some call') :
    call'.Inv host schedule ss ts v k := by
  unfold step at hlook
  by_cases hlt : call.scalars.shard < SHARD_COUNT
  · rw [if_pos hlt] at hlook
    obtain ⟨scalars, hstep, rfl⟩ := Option.map_eq_some_iff.mp hlook
    exact ⟨h.scalars.look hss hstep, h.timing⟩
  · rw [if_neg hlt] at hlook
    obtain ⟨timing, hstep, rfl⟩ := Option.map_eq_some_iff.mp hlook
    exact ⟨h.scalars, h.timing.look hts hstep⟩

end Inv

end LenCall

namespace Process

section Len

variable {host : Host} {before schedule : List Move} {p q last : Process}
  {turns : List (Option Move)} {call : LenCall} {ss : Traversals ScalarShard ScalarMeta ScalarKey}
  {ts : Traversals Shard MetricMeta TimingKey} {sturns : List (Turn ScalarShard.Request)}
  {tturns : List (Turn ProfileMeta)} {v : ℕ}

/-- A visitor of one's own for the scalar shards of a process. -/
theorem exists_unvisited_scalars (hp : new.run host before = some p) :
    ∃ turns : List (Turn ScalarShard.Request), Traversals.new.run host.scalar_route turns
      = some p.scalars.unvisited := by
  obtain ⟨turns, hturns⟩ := (run_steps hp).1.scalars
  exact Traversals.run_unvisited hturns

/-- The invariant of a call holds in the end. -/
theorem len_inv (hp : new.run host before = some p)
    (hq : Watch.run (step host) LenCall.step (p, LenCall.new) turns = some (q, call))
    (hfull : before ++ turns.reduceOption <+: schedule) (hrun : new.run host schedule = some last)
    (hss : Traversals.new.run host.scalar_route sturns = some ss)
    (hts : Traversals.new.run host.timing_route tturns = some ts)
    (hlanes : ss.lanes = p.scalars.lanes) (hlanes' : ts.lanes = p.timing.lanes)
    (hv : ss.visitors v = Visitor.new) (hv' : ts.visitors v = Visitor.new) :
    call.Inv host schedule ss ts v (before ++ turns.reduceOption).length := by
  have hfirst := moment_beginning hp ((List.prefix_append _ _).trans hfull)
  refine watch_induct hp hq hfull hrun
    ⟨LenSum.counts_new ?_ hv, LenSum.counts_new ?_ hv'⟩ (fun k o m hmove h => h.move hmove)
    (fun k o o' _ hlook h => h.look hss hts hlook)
  · rw [hfirst, hlanes]
  · rw [hfirst, hlanes']

end Len

/-- What `len` returns beside a running process. In every run of a process in which a call of `len`
is begun after `before` and goes on, load by load, while any threads register and update, it returns
at least the number of different slots that threads had handles to when it began, and at most the
number of those that registrations have determined when it is over. -/
theorem len_between (host : Host) (before : List Move) (turns : List (Option Move))
    (p q : Process) (call : LenCall) (hp : new.run host before = some p)
    (hq : Watch.run (step host) LenCall.step (p, LenCall.new) turns = some (q, call))
    (hdone : call.Done) :
    (p.returned.map Handle.slot).toFinset.card ≤ call.len
      ∧ call.len
        ≤ ((q.order.filterMap issued_by).map (fun issued => issued.2.slot)).toFinset.card := by
  have hall := run_watched hp hq
  obtain ⟨sturns, hss⟩ := exists_unvisited_scalars hp
  obtain ⟨tturns, hts⟩ := exists_unvisited hp
  obtain ⟨⟨scalars, hshadows, hof⟩, ⟨timing, hshadows', hof'⟩⟩ :=
    len_inv hp hq List.prefix_rfl hall hss hts rfl rfl (v := 0) rfl rfl
  rw [moment_beginning hall List.prefix_rfl] at hshadows hshadows'
  obtain ⟨history, store, hrep, hreached⟩ := exists_store hall
  -- the two traversals capture what a reader would
  have hcaptures : Captures p q history (traversed timing) (traversed scalars) :=
    captures_of hp hrep hreached (grows_run (Watch.run_moves hq)).2
      (hshadows'.sublist hts) (hshadows.sublist hss)
      (fun i k hk => hshadows'.exists_traversed hts rfl (hof'.shard.trans hdone.2) hk)
      (fun i k hk => hshadows.exists_traversed hss rfl (hof.shard.trans hdone.1) hk)
  have hcard : ((registered (traversed timing) (traversed scalars)).map Entry.slot).toFinset.card
      = call.len := by
    rw [List.toFinset_card_of_nodup hcaptures.slots_nodup, List.length_map, registered,
      List.length_append, List.length_map, List.length_map, hof.sum, hof'.sum, Nat.add_comm]
    rfl
  rw [← hcard]
  refine ⟨Finset.card_le_card (fun slot hslot => ?_), Finset.card_le_card (fun slot hslot => ?_)⟩
  · obtain ⟨handle, hhandle, rfl⟩ := List.mem_map.mp (List.mem_toFinset.mp hslot)
    obtain ⟨op, -, e, he, -, heq⟩ := hcaptures.complete handle hhandle
    exact List.mem_toFinset.mpr (List.mem_map.mpr ⟨e, he, heq⟩)
  · obtain ⟨e, he, rfl⟩ := List.mem_map.mp (List.mem_toFinset.mp hslot)
    obtain ⟨op, handle, hissued, -, rfl⟩ := hcaptures.origin e he
    rw [hrep.issued] at hissued
    exact List.mem_toFinset.mpr (List.mem_map.mpr ⟨_, hissued, rfl⟩)

/-- A gauge is registered while a call of `len` goes on, which has left its shard behind. -/
def queue_measured : List (Option Move) :=
  List.replicate 5 none
    ++ ([.call 1 (.gauge_new .Log "depth"), .enter 1, .lock 1, .access 1, .access 1, .access 1,
      .access 1, .access 1, .access 1, .unlock 1] : List Move).map some
    ++ List.replicate 252 none

set_option maxRecDepth 4000 in
/-- The call is over. -/
theorem queue_measures : ∃ p q call, new.run Host.seedless queue_first = some p
    ∧ p.returned = [.metric queue]
    ∧ Watch.run (step Host.seedless) LenCall.step (p, LenCall.new) queue_measured = some (q, call)
    ∧ call.Done
    ∧ (q.order.filterMap issued_by).length = 2 := by
  obtain ⟨p, hp⟩ := Option.isSome_iff_exists.mp
    (show (new.run Host.seedless queue_first).isSome = true by rfl)
  have hreturned : (new.run Host.seedless queue_first).map returned = some [.metric queue] := by rfl
  have hover : ((new.run Host.seedless queue_first).bind (fun p =>
      Watch.run (step Host.seedless) LenCall.step (p, LenCall.new) queue_measured)).map
        (fun x => (x.2.scalars.shard, x.2.timing.shard, (x.1.order.filterMap issued_by).length))
          = some (64, 64, 2) := by rfl
  rw [hp] at hreturned
  rw [hp, Option.bind_some] at hover
  obtain ⟨⟨q, call⟩, hq, hdone⟩ := Option.map_eq_some_iff.mp hover
  simp only [Prod.mk.injEq] at hdone
  exact ⟨p, q, call, hp, Option.some.inj hreturned, hq, ⟨hdone.1, hdone.2.1⟩, hdone.2.2⟩

theorem queue_len_between : ∃ p q call, new.run Host.seedless queue_first = some p
    ∧ Watch.run (step Host.seedless) LenCall.step (p, LenCall.new) queue_measured = some (q, call)
    ∧ 1 ≤ call.len ∧ call.len ≤ 2 := by
  obtain ⟨p, q, call, hp, hreturned, hq, hdone, hissued⟩ := queue_measures
  obtain ⟨hlo, hhi⟩ := len_between Host.seedless queue_first queue_measured p q call hp hq hdone
  rw [hreturned] at hlo
  refine ⟨p, q, call, hp, hq, hlo, hhi.trans ((List.toFinset_card_le _).trans ?_)⟩
  rw [List.length_map, hissued]

/-- From one `len` to the next the registry does not shrink: if the second call is begun when the
first is over, it returns no less, whatever is registered and updated before, between and during
the two. -/
theorem len_monotone (host : Host) (before : List Move) (turns turns' : List (Option Move))
    (p q q' : Process) (call call' : LenCall) (hp : new.run host before = some p)
    (hq : Watch.run (step host) LenCall.step (p, LenCall.new) turns = some (q, call))
    (hdone : call.Done)
    (hq' : Watch.run (step host) LenCall.step (q, LenCall.new) turns' = some (q', call'))
    (hdone' : call'.Done) : call.len ≤ call'.len := by
  have hmiddle := run_watched hp hq
  have hall := run_watched hmiddle hq'
  obtain ⟨sturns, hss⟩ := exists_unvisited_scalars hp
  obtain ⟨tturns, hts⟩ := exists_unvisited hp
  obtain ⟨⟨scalars, hshadows, hof⟩, ⟨timing, hshadows', hof'⟩⟩ :=
    len_inv hp hq (List.prefix_append _ turns'.reduceOption) hall hss hts rfl rfl (v := 0) rfl rfl
  rw [moment_beginning hmiddle (List.prefix_append _ _)] at hshadows hshadows'
  -- the second call goes along with the shards that the first has left
  obtain ⟨safter, ss, hss', hlanes, hvisitor, hnew⟩ :=
    hshadows.exists_next hss Nat.one_ne_zero rfl
  obtain ⟨tafter, ts, hts', hlanes', hvisitor', hnew'⟩ :=
    hshadows'.exists_next hts Nat.one_ne_zero rfl
  obtain ⟨⟨scalars', hlater, hlater_of⟩, ⟨timing', hlater', hlater_of'⟩⟩ :=
    len_inv hmiddle hq' List.prefix_rfl hall hss' hts' hlanes hlanes' hnew hnew'
  have hscalars := (hlater.grows hss' hvisitor (hof.shard.trans hdone.1) hnew
    (hlater_of.shard.trans hdone'.1)).length_le
  have htiming := (hlater'.grows hts' hvisitor' (hof'.shard.trans hdone.2) hnew'
    (hlater_of'.shard.trans hdone'.2)).length_le
  rw [hof.sum, hlater_of.sum] at hscalars
  rw [hof'.sum, hlater_of'.sum] at htiming
  exact Nat.add_le_add hscalars htiming

set_option maxRecDepth 4000 in
theorem queue_len_monotone : ∃ p q q' call call', new.run Host.seedless queue_first = some p
    ∧ Watch.run (step Host.seedless) LenCall.step (p, LenCall.new) queue_measured = some (q, call)
    ∧ Watch.run (step Host.seedless) LenCall.step (q, LenCall.new) (List.replicate 258 none)
        = some (q', call')
    ∧ call.len ≤ call'.len := by
  obtain ⟨p, q, call, hp, -, hq, hdone, -⟩ := queue_measures
  have hover : (((new.run Host.seedless queue_first).bind (fun p =>
      Watch.run (step Host.seedless) LenCall.step (p, LenCall.new) queue_measured)).bind
        (fun x => Watch.run (step Host.seedless) LenCall.step (x.1, LenCall.new)
          (List.replicate 258 none))).map
        (fun x => (x.2.scalars.shard, x.2.timing.shard)) = some (64, 64) := by rfl
  rw [hp, Option.bind_some, hq, Option.bind_some] at hover
  obtain ⟨⟨q', call'⟩, hq', hdone'⟩ := Option.map_eq_some_iff.mp hover
  obtain ⟨hscalars, htiming⟩ := Prod.mk.inj hdone'
  exact ⟨p, q, q', call, call', hp, hq, hq', len_monotone Host.seedless queue_first queue_measured
    (List.replicate 258 none) p q q' call call' hp hq hdone hq' ⟨hscalars, htiming⟩⟩

end Process

end BrzMetrics
