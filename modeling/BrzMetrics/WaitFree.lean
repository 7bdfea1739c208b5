/-
Readers are built without waiting for registrations.

A traversal takes no mutex, so it can always take its next step, whoever is in the
middle of a registration. And it does not run after the registrations either: the
index of a shard is loaded once, and of every chunk the published length, so what a
traversal has to do is bounded by what has been registered (`Traversals.work`): two
steps for a shard and two for a chunk, and one for each entry. `Visitor.Paced` keeps
the account while others go on registering.

A process is a schedule of its timing shards and one of its scalar shards
(`Process.Happens.turns`), so the bound is one on the construction of a reader. The
only thing it waits for is the mutex of the states, whose holder releases it with its
next move (`Process.construction_wait_free`).
-/
import BrzMetrics.Liveness

set_option autoImplicit false

namespace BrzMetrics

open ChunkLog KeyedStore Linearize

/-! ## What a traversal has spent -/

/-- How many steps a traversal has taken in its current shard, but for those that read entries,
where the shard has up to `bound` chunks. -/
def VisitorPc.spent (bound : ℕ) : VisitorPc → ℕ
  | .start => 0
  | .chunks rest => 1 + 2 * (bound - rest.length)
  | .reading _ _ _ rest => 2 * (bound - rest.length)
  | .fault => 0

namespace Visitor

variable {T : Type}

/-- The steps for the shards before `shard`: load the index, go on to the next shard, and load a
length and go on to the next chunk. -/
def passed (bound : Fin SHARD_COUNT → ℕ) (shard : ℕ) : ℕ :=
  ∑ i : Fin SHARD_COUNT, if i.val < shard then 2 + 2 * bound i else 0

/-- How many entries a traversal has read. -/
def taken (self : Visitor T) : ℕ := ∑ i : Fin SHARD_COUNT, (self.visited i).length

/-- The steps for the current shard. -/
def here (bound : Fin SHARD_COUNT → ℕ) (self : Visitor T) : ℕ :=
  if h : self.shard < SHARD_COUNT then self.pc.spent (bound ⟨self.shard, h⟩) else 0

/-- A traversal of shards that have up to `bound` chunks has taken `n` steps. -/
structure Paced (bound : Fin SHARD_COUNT → ℕ) (v : Visitor T) (n : ℕ) : Prop where
  spent : n ≤ passed bound v.shard + v.taken + v.here bound
  chunks : ∀ (h : v.shard < SHARD_COUNT) rest, v.pc = .chunks rest →
    rest.length ≤ bound ⟨v.shard, h⟩
  reading : ∀ (h : v.shard < SHARD_COUNT) arc len offset rest,
    v.pc = .reading arc len offset rest → rest.length < bound ⟨v.shard, h⟩

theorem paced_new (bound : Fin SHARD_COUNT → ℕ) : (new : Visitor T).Paced bound 0 where
  spent := Nat.zero_le _
  chunks := fun _ _ h => VisitorPc.noConfusion h
  reading := fun _ _ _ _ _ h => VisitorPc.noConfusion h

theorem passed_succ (bound : Fin SHARD_COUNT → ℕ) (i : Fin SHARD_COUNT) :
    passed bound (i.val + 1) = passed bound i.val + (2 + 2 * bound i) := by
  have hsplit : ∀ j : Fin SHARD_COUNT, (if j.val < i.val + 1 then 2 + 2 * bound j else 0)
      = (if j.val < i.val then 2 + 2 * bound j else 0) + if j = i then 2 + 2 * bound j else 0 := by
    intro j
    by_cases hji : j = i
    · subst hji
      simp
    · have hne : j.val ≠ i.val := fun h => hji (Fin.ext h)
      rw [if_neg hji, Nat.add_zero]
      exact if_congr (by omega) rfl rfl
  rw [passed, Finset.sum_congr rfl (fun j _ => hsplit j), Finset.sum_add_distrib, ← passed,
    Finset.sum_ite_eq' Finset.univ i, if_pos (Finset.mem_univ i)]

theorem taken_visit (v : Visitor T) (i : Fin SHARD_COUNT) (entry : T) :
    (visit i entry v).taken = v.taken + 1 := by
  have hlength : ∀ j, ((visit i entry v).visited j).length
      = (v.visited j).length + if j = i then 1 else 0 := by
    intro j
    by_cases hji : j = i
    · subst hji
      simp [visit]
    · simp [visit, hji]
  rw [taken, Finset.sum_congr rfl (fun j _ => hlength j), Finset.sum_add_distrib,
    Finset.sum_ite_eq' Finset.univ i, if_pos (Finset.mem_univ i)]
  rfl

section Paced

variable {bound bound' : Fin SHARD_COUNT → ℕ} {v v' : Visitor T} {n : ℕ}

/-- Shards may get more chunks. -/
theorem Paced.mono (h : v.Paced bound n) (hbound : ∀ i, bound i ≤ bound' i) :
    v.Paced bound' n where
  spent := by
    have hpassed : passed bound v.shard ≤ passed bound' v.shard := by
      refine Finset.sum_le_sum (fun i _ => ?_)
      have := hbound i
      split_ifs <;> omega
    have hhere : v.here bound ≤ v.here bound' := by
      unfold here
      split_ifs with hv
      · have := hbound ⟨v.shard, hv⟩
        cases v.pc <;> simp only [VisitorPc.spent] <;> omega
      · exact le_refl 0
    have := h.spent
    omega
  chunks := fun hv rest hpc => (h.chunks hv rest hpc).trans (hbound _)
  reading := fun hv arc len offset rest hpc => (h.reading hv arc len offset rest hpc).trans_le
    (hbound _)

/-- A step is one of those that are accounted for. -/
theorem Paced.step {stores : Fin SHARD_COUNT → Chunks T} (h : v.Paced bound n)
    (hindex : ∀ i, (stores i).index.length ≤ bound i) (hs : v.step stores = some v')
    (hfault : v'.pc ≠ .fault) : v'.Paced bound (n + 1) := by
  have hspent := h.spent
  unfold Visitor.step at hs
  by_cases hv : v.shard < SHARD_COUNT
  swap
  · simp [hv] at hs
  rw [dif_pos hv] at hs
  rw [here, dif_pos hv] at hspent
  dsimp only at hs
  rcases hpc : v.pc with _ | (_ | ⟨arc, rest⟩) | ⟨arc, len, offset, rest⟩ | _
  · -- the chunks of the index are still to be gone through
    simp only [hpc, Option.some.injEq] at hs
    subst hs
    have hlength := hindex ⟨v.shard, hv⟩
    rw [hpc, VisitorPc.spent] at hspent
    refine ⟨?_, ?_, fun _ _ _ _ _ hreading => VisitorPc.noConfusion hreading⟩
    · rw [here, dif_pos hv, VisitorPc.spent]
      change n + 1 ≤ passed bound v.shard + v.taken + _
      omega
    · intro _ rest hrest
      obtain rfl := VisitorPc.chunks.inj hrest
      exact hlength
  · -- the last chunk is done, and with it the shard
    simp only [hpc, Option.some.injEq] at hs
    subst hs
    rw [hpc, VisitorPc.spent, List.length_nil, Nat.sub_zero] at hspent
    refine ⟨?_, fun _ _ hchunks => VisitorPc.noConfusion hchunks,
      fun _ _ _ _ _ hreading => VisitorPc.noConfusion hreading⟩
    have hpassed := passed_succ bound ⟨v.shard, hv⟩
    change n + 1 ≤ passed bound (v.shard + 1) + v.taken + _
    dsimp only at hpassed
    omega
  · simp only [hpc, Option.some.injEq] at hs
    subst hs
    have hlength := h.chunks hv _ hpc
    rw [List.length_cons] at hlength
    rw [hpc, VisitorPc.spent, List.length_cons] at hspent
    refine ⟨?_, fun _ _ hchunks => VisitorPc.noConfusion hchunks, ?_⟩
    · rw [here, dif_pos hv, VisitorPc.spent]
      change n + 1 ≤ passed bound v.shard + v.taken
        + 2 * (bound ⟨v.shard, hv⟩ - rest.length)
      omega
    · intro _ arc' len offset rest' hreading
      obtain ⟨-, -, -, rfl⟩ := VisitorPc.reading.inj hreading
      exact hlength
  · simp only [hpc] at hs
    have hlength := h.reading hv _ _ _ _ hpc
    rw [hpc, VisitorPc.spent] at hspent
    by_cases ho : offset < len
    · rw [if_pos ho] at hs
      split at hs
      · obtain rfl := Option.some.inj hs
        refine ⟨?_, fun _ _ hchunks => VisitorPc.noConfusion hchunks, ?_⟩
        · -- one more entry has been read
          have htaken := taken_visit (T := T) { v with pc := .reading arc len (offset + 1) rest }
            ⟨v.shard, hv⟩ ‹T›
          have hhere : here bound (visit ⟨v.shard, hv⟩ ‹T›
              { v with pc := .reading arc len (offset + 1) rest })
              = 2 * (bound ⟨v.shard, hv⟩ - rest.length) := dif_pos hv
          rw [htaken, hhere]
          change n + 1 ≤ passed bound v.shard + (v.taken + 1) + _
          omega
        · intro _ arc' len' offset' rest' hreading
          obtain ⟨-, -, -, rfl⟩ := VisitorPc.reading.inj hreading
          exact hlength
      · obtain rfl := Option.some.inj hs
        exact absurd rfl hfault
    · rw [if_neg ho] at hs
      obtain rfl := Option.some.inj hs
      refine ⟨?_, ?_, fun _ _ _ _ _ hreading => VisitorPc.noConfusion hreading⟩
      · rw [here, dif_pos hv, VisitorPc.spent]
        change n + 1 ≤ passed bound v.shard + v.taken
          + (1 + 2 * (bound ⟨v.shard, hv⟩ - rest.length))
        omega
      · intro _ rest' hchunks
        obtain rfl := VisitorPc.chunks.inj hchunks
        exact hlength.le
  · simp [hpc] at hs

/-- So a traversal takes no more steps than that, over all shards. -/
theorem Paced.le (h : v.Paced bound n) (hshard : v.shard ≤ SHARD_COUNT) :
    n ≤ (∑ i, (2 + 2 * bound i)) + v.taken := by
  have hspent := h.spent
  have hall : ∀ shard, passed bound shard ≤ ∑ i, (2 + 2 * bound i) := by
    intro shard
    refine Finset.sum_le_sum (fun i _ => ?_)
    split_ifs
    · exact le_refl _
    · exact Nat.zero_le _
  rcases hshard.lt_or_eq with hv | hv
  · have hnext := hall (v.shard + 1)
    have hpassed := passed_succ bound ⟨v.shard, hv⟩
    have hhere : v.here bound ≤ 2 + 2 * bound ⟨v.shard, hv⟩ := by
      rw [here, dif_pos hv]
      cases v.pc <;> simp only [VisitorPc.spent] <;> omega
    dsimp only at hpassed
    omega
  · have hnone : v.here bound = 0 := dif_neg (by omega)
    have := hall v.shard
    omega

end Paced

/-- A traversal that is not over can take its next step. -/
theorem exists_step {v : Visitor T} (stores : Fin SHARD_COUNT → Chunks T)
    (hv : v.shard < SHARD_COUNT) (hfault : v.pc ≠ .fault) : ∃ v', v.step stores = some v' := by
  rw [step, dif_pos hv]
  rcases hpc : v.pc with _ | (_ | ⟨arc, rest⟩) | ⟨arc, len, offset, rest⟩ | _
  · exact ⟨_, rfl⟩
  · exact ⟨_, rfl⟩
  · exact ⟨_, rfl⟩
  · dsimp only
    split_ifs
    · split <;> exact ⟨_, rfl⟩
    · exact ⟨_, rfl⟩
  · exact absurd hpc hfault

end Visitor

/-! ## Traversals while registrations go on -/

/-- The index never has more chunks than the order fills. -/
theorem ShardAccess.Program.indexed_le {T : Type} {order : List T} :
    ∀ {todo : List (ShardAccess T)} {p : Progress}, Good CHUNK_SIZE p → Program order p todo →
      p.indexed ≤ chunkCount CHUNK_SIZE order.length
  | [], p, _, h => by
    rw [show p = settled CHUNK_SIZE order.length from h]
    exact le_refl _
  | a :: _, _, hg, h => (hg.le_apply a.step).indexed.trans (indexed_le (hg.apply h.1) h.2.2)

/-- A turn of a given traversal. -/
def Turn.visits {C : Type} (v : ℕ) : Turn C → Bool
  | .visit w => w = v
  | .lock _ | .access _ | .unlock _ => false

namespace Traversals

variable {σ T C K : Type} [ShardKind σ T C K]

/-- How many chunks every shard's registration order fills. -/
def chunk_counts (self : Traversals σ T K) (i : Fin SHARD_COUNT) : ℕ :=
  chunkCount CHUNK_SIZE (self.lanes i).order.length

/-- How much a traversal may have to do: load an index and go on, for every shard, load a length
and go on, for every chunk, and read every entry. -/
def work (self : Traversals σ T K) : ℕ :=
  ∑ i, (2 + 2 * self.chunk_counts i) + ∑ i, (self.lanes i).order.length

variable [DecidableEq K] {route : K → Fin SHARD_COUNT} {s s' : Traversals σ T K}

/-- A turn of a traversal is one of its steps; any other turn leaves it alone. -/
theorem step_visitor {turn : Turn C} (hs : s.step route turn = some s') (v : ℕ) :
    (turn.visits v = true
        ∧ (s.visitors v).step (fun i => ShardKind.store (s.lanes i).shard) = some (s'.visitors v))
      ∨ (turn.visits v = false ∧ s'.visitors v = s.visitors v) := by
  have hlane : ∀ {i : Fin SHARD_COUNT} {f : Lane σ T K → Option (Lane σ T K)},
      s.on_lane i f = some s' → s'.visitors v = s.visitors v := by
    intro i f hon
    obtain ⟨l, -, rfl⟩ := Option.map_eq_some_iff.mp hon
    rfl
  cases turn with
  | lock call => exact .inr ⟨rfl, hlane hs⟩
  | access i => exact .inr ⟨rfl, hlane hs⟩
  | unlock i => exact .inr ⟨rfl, hlane hs⟩
  | visit w =>
    obtain ⟨visitor, hvisitor, rfl⟩ := Option.map_eq_some_iff.mp hs
    by_cases hw : w = v
    · subst hw
      exact .inl ⟨decide_eq_true rfl, by rw [hvisitor]; simp⟩
    · exact .inr ⟨decide_eq_false hw, Function.update_of_ne (Ne.symm hw) _ _⟩

/-- Whatever the schedule, a traversal has taken no more steps than its position accounts for. -/
theorem run_paced {schedule : List (Turn C)} (hs : new.run route schedule = some s) (v : ℕ) :
    (s.visitors v).Paced s.chunk_counts (schedule.countP (Turn.visits v)) := by
  induction schedule using List.reverseRecOn generalizing s with
  | nil =>
    obtain rfl := Option.some.inj hs
    exact Visitor.paced_new _
  | append_singleton schedule turn ih =>
    have hall := hs
    rw [run, List.foldlM_append] at hs
    obtain ⟨t, ht, hturn⟩ := Option.bind_eq_some_iff.mp hs
    simp only [List.foldlM_cons, List.foldlM_nil, bind_pure] at hturn
    obtain ⟨ps, h⟩ := run_inv ht
    obtain ⟨-, -, hgrow⟩ := h.step hturn
    have hmono : ∀ i, t.chunk_counts i ≤ s.chunk_counts i := fun i =>
      Nat.div_le_div_right (Nat.sub_le_sub_right (Nat.add_le_add_right (hgrow i).length_le _) 1)
    have hpaced := ih ht
    rw [List.countP_append, List.countP_singleton]
    rcases step_visitor hturn v with ⟨hvisits, hstep⟩ | ⟨hvisits, hsame⟩
    · rw [hvisits, if_pos rfl]
      refine (hpaced.step (fun i => ?_) hstep ((sound σ route).initialized _ _ hall v)).mono hmono
      -- the index that is loaded has the chunks of the entries so far
      rw [(h.lanes i).shape.index, List.length_range]
      exact (h.lanes i).program.indexed_le (h.lanes i).good
    · rw [hvisits, if_neg Bool.false_ne_true, hsame]
      exact hpaced.mono hmono

/-- A traversal takes a bounded number of steps. -/
theorem visits_le {schedule : List (Turn C)} (hs : new.run route schedule = some s) (v : ℕ) :
    schedule.countP (Turn.visits v) ≤ s.work := by
  obtain ⟨ps, h⟩ := run_inv hs
  refine ((run_paced hs v).le (h.visitors v).shard_le).trans (Nat.add_le_add_left ?_ _)
  exact Finset.sum_le_sum (fun i _ => ((h.visitors v).visited i).length_le)

/-- And while it is not over it can always take the next. -/
theorem exists_visit {schedule : List (Turn C)} (hs : new.run route schedule = some s) {v : ℕ}
    (hv : (s.visitors v).shard < SHARD_COUNT) :
    ∃ s', s.step route (.visit v : Turn C) = some s' := by
  obtain ⟨visitor, hvisitor⟩ := Visitor.exists_step
    (fun i => ShardKind.store (s.lanes i).shard) hv
    ((sound σ route).initialized _ _ hs v)
  exact ⟨_, by rw [step, hvisitor]; rfl⟩

end Traversals

/-! ## The construction of a reader -/

/-- A move of the construction of a given reader. -/
def Move.reads (v : ℕ) : Move → Bool
  | .read w _ => w = v
  | .call _ _ | .enter _ | .lock _ | .access _ | .unlock _ | .update _ _ | .apply _ => false

namespace Process

/-- Whether a reader has been built. -/
def built (self : Process) (v : ℕ) : ℕ := if (self.readers v).isSome then 1 else 0

/-- The turns of its timing shards and of its scalar shards that a process has taken from `p` to
`q`, in moves of which `reads` count those for each reader. -/
def Turns (host : Host) (p q : Process) (reads : ℕ → ℕ) : Prop :=
  ∃ (turns : List (Turn ProfileMeta)) (turns' : List (Turn ScalarShard.Request)),
    p.timing.run host.timing_route turns = some q.timing
    ∧ p.scalars.run host.scalar_route turns' = some q.scalars
    ∧ ∀ v, turns.countP (Turn.visits v) + turns'.countP (Turn.visits v) + q.built v
      = reads v + p.built v

section Turns

variable {host : Host} {p q r : Process} {move : Move}

theorem turns_refl (h : p.timing = q.timing) (h' : p.scalars = q.scalars)
    (hreaders : p.readers = q.readers) : Turns host p q (fun _ => 0) :=
  ⟨[], [], by rw [h]; rfl, by rw [h']; rfl, fun v => by simp [built, hreaders]⟩

theorem turns_stay {reads : ℕ → Bool} (hreads : ∀ v, reads v = false) (h : p.timing = q.timing)
    (h' : p.scalars = q.scalars) (hreaders : p.readers = q.readers) :
    Turns host p q (fun v => if reads v then 1 else 0) := by
  simp only [hreads, Bool.false_eq_true, if_false]
  exact turns_refl h h' hreaders

theorem turns_timing {turn : Turn ProfileMeta} {reads : ℕ → Bool}
    (hreads : ∀ v, reads v = turn.visits v)
    (hstep : p.timing.step host.timing_route turn = some q.timing) (h' : p.scalars = q.scalars)
    (hreaders : p.readers = q.readers) :
    Turns host p q (fun v => if reads v then 1 else 0) := by
  refine ⟨[turn], [], ?_, by rw [h']; rfl, fun v => ?_⟩
  · simp [Traversals.run, hstep]
  · simp [built, hreaders, hreads, List.countP_cons]

theorem turns_scalars {turn : Turn ScalarShard.Request} {reads : ℕ → Bool}
    (hreads : ∀ v, reads v = turn.visits v)
    (hstep : p.scalars.step host.scalar_route turn = some q.scalars) (h : p.timing = q.timing)
    (hreaders : p.readers = q.readers) :
    Turns host p q (fun v => if reads v then 1 else 0) := by
  refine ⟨[], [turn], by rw [h]; rfl, ?_, fun v => ?_⟩
  · simp [Traversals.run, hstep]
  · simp [built, hreaders, hreads, List.countP_cons]

/-- Every move is at most one turn of the shards, and a reader's moves are those of its two
traversals and the last one. -/
theorem Happens.turns (h : p.Happens host move q) :
    Turns host p q (fun v => if move.reads v then 1 else 0) := by
  cases h with
  | call _ _ _ | enter _ _ _ _ | lock_states _ _ _ _ _ _ | unlock_states _ _ _ _ | update _ _ _ _
  | apply_last _ _ | apply _ _ _ _ => exact turns_stay (fun _ => rfl) rfl rfl rfl
  | lock_timing _ _ _ _ _ _ hstep | access_timing _ _ _ _ _ _ hstep
  | unlock_timing _ _ _ _ _ _ hstep | visit_timing _ _ _ hstep =>
    exact turns_timing (fun _ => rfl) hstep rfl rfl
  | lock_scalar _ _ _ _ _ _ hstep | access_scalar _ _ _ _ _ _ hstep
  | unlock_scalar _ _ _ _ _ _ hstep | visit_scalars _ _ _ _ hstep =>
    exact turns_scalars (fun _ => rfl) hstep rfl rfl
  | built v order hdone hdone' hnew hfree =>
    refine ⟨[], [], rfl, rfl, fun w => ?_⟩
    by_cases hw : v = w
    · subst hw
      simp [Process.built, Move.reads, hnew]
    · simp [Process.built, Move.reads, hw, Function.update_of_ne (Ne.symm hw)]

theorem Turns.trans {n m : ℕ → ℕ} (h : Turns host p q n) (h' : Turns host q r m) :
    Turns host p r (fun v => n v + m v) := by
  obtain ⟨turns, turns', htiming, hscalars, hcount⟩ := h
  obtain ⟨turns₁, turns₁', htiming₁, hscalars₁, hcount₁⟩ := h'
  refine ⟨turns ++ turns₁, turns' ++ turns₁', ?_, ?_, fun v => ?_⟩
  · rw [Traversals.run] at htiming ⊢
    rw [List.foldlM_append, htiming]
    exact htiming₁
  · rw [Traversals.run] at hscalars ⊢
    rw [List.foldlM_append, hscalars]
    exact hscalars₁
  · have := hcount v
    have := hcount₁ v
    rw [List.countP_append, List.countP_append]
    dsimp only
    omega

/-- A run of a process is a schedule of its timing shards and one of its scalar shards. -/
theorem run_turns {schedule : List Move} (hs : p.run host schedule = some q) :
    Turns host p q (fun v => schedule.countP (Move.reads v)) := by
  induction schedule generalizing p with
  | nil =>
    obtain rfl : p = q := Option.some.inj hs
    exact turns_refl rfl rfl rfl
  | cons move schedule ih =>
    rw [run, List.foldlM_cons] at hs
    obtain ⟨r, hr, hrest⟩ := Option.bind_eq_some_iff.mp hs
    have htrans := ((step_happens hr).turns).trans (ih hrest)
    have hreads : (fun v => (if move.reads v then 1 else 0) + schedule.countP (Move.reads v))
        = fun v => (move :: schedule).countP (Move.reads v) :=
      funext (fun v => by rw [List.countP_cons, Nat.add_comm])
    rwa [hreads] at htrans

end Turns

/-- The construction of a reader is wait-free, but for one mutex that it takes last. Whatever any
number of threads do meanwhile, in any order: the moves it makes are bounded by what has been
registered when it makes the last one; and as long as it is not over, it can make its next move
at once, whichever shards are held. Only when both traversals are over it may find the mutex of the
states held, by a thread whose next move is to release it. -/
theorem construction_wait_free (host : Host) (schedule : List Move) (p : Process)
    (hrun : Process.new.run host schedule = some p) (v : ℕ) :
    schedule.countP (Move.reads v) ≤ p.timing.work + p.scalars.work + 1
      ∧ (p.readers v = none → ∀ order,
        (∃ p', p.step host (.read v order) = some p')
          ∨ (p.timing.visitors v).Done ∧ (p.scalars.visitors v).Done
            ∧ ∃ t q p', (p.threads t).pc.at_place = some (.states, none)
              ∧ p.step host (.unlock t) = some q ∧ q.step host (.read v order) = some p') := by
  obtain ⟨turns, turns', htiming, hscalars, hcount⟩ := run_turns hrun
  have howned := (owned_new host).run hrun
  obtain ⟨ps, hinv⟩ := Traversals.run_inv htiming
  obtain ⟨ps', hinv'⟩ := Traversals.run_inv hscalars
  constructor
  · have hvisits := Traversals.visits_le htiming v
    have hvisits' := Traversals.visits_le hscalars v
    have hreads := hcount v
    have hbuilt : p.built v ≤ 1 := by
      unfold built
      split_ifs <;> omega
    have hnew : (Process.new).built v = 0 := rfl
    dsimp only at hreads
    omega
  · intro hnew order
    by_cases hdone : (p.timing.visitors v).shard < SHARD_COUNT
    · obtain ⟨timing, hstep⟩ := Traversals.exists_visit htiming hdone
      exact .inl ⟨_, by rw [step, build, if_pos hdone, hstep]; rfl⟩
    by_cases hdone' : (p.scalars.visitors v).shard < SHARD_COUNT
    · obtain ⟨scalars, hstep⟩ := Traversals.exists_visit hscalars hdone'
      exact .inl ⟨_, by rw [step, build, if_neg hdone, if_pos hdone', hstep]; rfl⟩
    cases hholder : p.states_holder with
    | none =>
      refine .inl (Option.isSome_iff_exists.mp ?_)
      simp only [step, build, if_neg hdone, if_neg hdone', hnew, hholder]
      rfl
    | some holder =>
      refine .inr ⟨(hinv.visitors v).shard_le.antisymm (not_lt.mp hdone),
        (hinv'.visitors v).shard_le.antisymm (not_lt.mp hdone'), ?_⟩
      -- some thread is recording a state, and has nothing left to do
      obtain ⟨t, ht⟩ := (howned.exclusive.held_iff .states none).mp (by rw [held, hholder]; rfl)
      cases hpc : (p.threads t).pc with
      | inside access place result =>
        rw [hpc] at ht
        obtain ⟨rfl, -⟩ := Prod.mk.inj (Option.some.inj ht)
        refine ⟨t, { p.unlocked t result with states_holder := none }, ?_⟩
        have hread : (Process.step host
            ({ p.unlocked t result with states_holder := none } : Process)
            (.read v order)).isSome = true := by
          simp only [step, build, unlocked, set_pc, set_thread, if_neg hdone, if_neg hdone', hnew]
          rfl
        obtain ⟨p', hp'⟩ := Option.isSome_iff_exists.mp hread
        refine ⟨p', ?_, ?_, hp'⟩
        · rw [hpc]
          exact ht
        · simp only [step, hpc, release]
      | outside | waiting _ | updating _ => rw [hpc] at ht; cases ht

/-- A queue that is being registered, and a reader that goes past it. -/
def passing : List Move :=
  [.call 0 (.log "queue"), .enter 0, .lock 0, .access 0, .read 0 .stored, .read 0 .stored,
    .access 0, .read 0 .stored]

theorem passing_wait_free : ∃ p, Process.new.run Host.seedless passing = some p
    ∧ (p.threads 0).pc.at_place.isSome = true
    ∧ passing.countP (Move.reads 0) ≤ p.timing.work + p.scalars.work + 1
    ∧ ∀ order, ∃ p', p.step Host.seedless (.read 0 order) = some p' := by
  obtain ⟨p, hp⟩ := Option.isSome_iff_exists.mp
    (show (Process.new.run Host.seedless passing).isSome = true by rfl)
  have hheld : (Process.new.run Host.seedless passing).map
      (fun p => (p.threads 0).pc.at_place.isSome) = some true := by rfl
  have hreading : (Process.new.run Host.seedless passing).map
      (fun p => ((p.readers 0).isNone, decide ((p.scalars.visitors 0).shard < SHARD_COUNT)))
        = some (true, true) := by rfl
  rw [hp, Option.map_some, Option.some.injEq] at hheld hreading
  obtain ⟨hreader, hshard⟩ := Prod.mk.inj hreading
  obtain ⟨hbound, hnext⟩ := construction_wait_free Host.seedless _ p hp 0
  refine ⟨p, hp, hheld, hbound, fun order => ?_⟩
  -- the second traversal is not over, so the mutex of the states is not needed
  rcases hnext (Option.isNone_iff_eq_none.mp hreader) order with hstep | ⟨-, hdone, -⟩
  · exact hstep
  · exact absurd (of_decide_eq_true hshard) (by rw [hdone]; exact lt_irrefl _)

end Process

end BrzMetrics
