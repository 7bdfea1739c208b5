/-
Traversals and registrations in release/acquire memory.

The turns are those of `Traversals`, but threads take them, and a thread sees of the
memory what release/acquire lets it see: a traversal may find an old index, and an
old published length in a new index. Threads also use the handles they have been
given, and may learn what another thread knows, by being spawned or joined by it or
through any other synchronization of the program.

There is no data race, no entry is read before it has been written and no slot used
before it has been initialized (`WeakTraversals.Sound`). What a traversal visits of a
shard is still the beginning of the registration order, and it includes the entry
of every handle that its thread had when the traversal began: the thread knows that
the handle has been returned, so it cannot see an index or a length from before
(`WeakTraversals.Complete`).
-/
import BrzMetrics.WeakShards

set_option autoImplicit false

namespace BrzMetrics

open ChunkLog KeyedStore ReleaseAcquire

/-! ## Threads -/

/-- A registry in release/acquire memory. `past` is what each thread knows, `released` what is known
to the next holder of a shard's mutex, and `holders` who holds it. A handle is the number of a slot
of a shard; entry number `n` has slot number `n`. -/
structure WeakTraversals (σ T K : Type) extends Traversals σ T K where
  memory : List (Event Loc (Cell T))
  past : ℕ → Finset ℕ
  released : Fin SHARD_COUNT → Finset ℕ
  holders : Fin SHARD_COUNT → ℕ
  handles : ℕ → List (Fin SHARD_COUNT × ℕ)

/-- Whose turn it is: those of `Turn`, with the places that stores take and the stores that loads
read from. A debug build loads the published length once more for an assertion, from `reload`; a
release build does not. Besides, a thread updates a slot, or learns what another one knows. -/
inductive WeakTurn (C : Type) where
  | lock (thread : ℕ) (call : C)
  | access (shard : Fin SHARD_COUNT) (stamps : List ℕ)
  | unlock (shard : Fin SHARD_COUNT)
  | visit (visitor source : ℕ) (reload : Option ℕ)
  | update (thread : ℕ) (shard : Fin SHARD_COUNT) (n stamp : ℕ)
  | meet (thread other : ℕ)

/-- The turn of `Traversals` that a registration takes. -/
def WeakTurn.registration {C : Type} : WeakTurn C → Option (Turn C)
  | .lock _ call => some (.lock call)
  | .access i _ => some (.access i)
  | .unlock i => some (.unlock i)
  | .visit _ _ _ => none
  | .update _ _ _ _ => none
  | .meet _ _ => none

/-- What a cell is read as: an index, a published length or an entry. -/
def Cell.to_visit {T : Type} : Cell T → Option (List ℕ)
  | .index chunks => some chunks
  | .published_len _ => none
  | .entry _ => none
  | .slots => none

def Cell.len {T : Type} : Cell T → Option ℕ
  | .index _ => none
  | .published_len len => some len
  | .entry _ => none
  | .slots => none

def Cell.meta {T : Type} : Cell T → Option T
  | .index _ => none
  | .published_len _ => none
  | .entry value => some value
  | .slots => none

/-- The indexes are there from the start. -/
def initial_memory (T : Type) : List (Event Loc (Cell T)) :=
  (List.finRange SHARD_COUNT).map (fun i => ⟨.index i, .index [], 0, true, .plain, ∅⟩)

/-- The entry that `MetaChunk::get` returns a reference to, read by a thread that knows `past`. -/
def read_entry {T : Type} (memory : List (Event Loc (Cell T))) (past : Finset ℕ)
    (i : Fin SHARD_COUNT) (arc offset source : ℕ) :
    Option (Option T × List (Event Loc (Cell T)) × Finset ℕ) :=
  (load memory past (.entry i arc offset) .plain source).map
    (fun (value, memory, past) => (value.meta, memory, past))

/-- `MetaChunk::get`. With debug assertions the published length is loaded once more before the
entry is read. -/
def weak_get {T : Type} (memory : List (Event Loc (Cell T))) (past : Finset ℕ)
    (i : Fin SHARD_COUNT) (arc offset source : ℕ) (reload : Option ℕ) :
    Option (Option T × List (Event Loc (Cell T)) × Finset ℕ) :=
  match reload with
  | none => read_entry memory past i arc offset source
  | some again =>
    (load memory past (.published_len i arc) .ordered again).bind (fun (value, memory, past) =>
      match value.len with
      | some len =>
        if offset < len then read_entry memory past i arc offset source
        else some (none, memory, past)
      | none => some (none, memory, past))

/-- One step of a traversal by a thread that knows `past`. It also tells which handle the thread
gets to see in an entry. -/
def Visitor.weak_step {T : Type} (memory : List (Event Loc (Cell T))) (past : Finset ℕ)
    (source : ℕ) (reload : Option ℕ) (self : Visitor T) :
    Option (Visitor T × List (Fin SHARD_COUNT × ℕ) × List (Event Loc (Cell T)) × Finset ℕ) :=
  if h : self.shard < SHARD_COUNT then
    let i : Fin SHARD_COUNT := ⟨self.shard, h⟩
    match self.pc with
    | .start =>
      (load memory past (.index i) .ordered source).map (fun (value, memory, past) =>
        ({ self with pc := (value.to_visit.map VisitorPc.chunks).getD .fault }, [], memory, past))
    | .chunks [] => some ({ self with shard := self.shard + 1, pc := .start }, [], memory, past)
    | .chunks (arc :: rest) =>
      (load memory past (.published_len i arc) .ordered source).map (fun (value, memory, past) =>
        ({ self with pc := (value.len.map (fun len => .reading arc len 0 rest)).getD .fault }, [],
          memory, past))
    | .reading arc len offset rest =>
      if offset < len then
        (weak_get memory past i arc offset source reload).map (fun (entry, memory, past) =>
          match entry with
          | some entry =>
            (Visitor.visit i entry { self with pc := .reading arc len (offset + 1) rest },
              [(i, (self.visited i).length)], memory, past)
          | none => ({ self with pc := .fault }, [], memory, past))
      else some ({ self with pc := .chunks rest }, [], memory, past)
    | .fault => none
  else none

namespace WeakTraversals

variable {σ T C K : Type} [ShardKind σ T C K]

/-- A new registry. Its indexes have been initialized before any thread gets hold of it. -/
def new : WeakTraversals σ T K where
  toTraversals := Traversals.new
  memory := initial_memory T
  past := fun _ => Finset.range SHARD_COUNT
  released := fun _ => Finset.range SHARD_COUNT
  holders := fun _ => 0
  handles := fun _ => []

/-- What the next access of a registration stores. -/
def next_stores (i : Fin SHARD_COUNT) (self : WeakTraversals σ T K) : List (Loc × Cell T × Mode) :=
  match (self.lanes i).todo with
  | [] => []
  | a :: _ => a.stores i (ShardKind.store (self.lanes i).shard)

/-- One turn. `owner` tells whose traversals are whose. -/
def step [DecidableEq K] (route : K → Fin SHARD_COUNT) (owner : ℕ → ℕ)
    (self : WeakTraversals σ T K) : WeakTurn C → Option (WeakTraversals σ T K)
  | .lock thread call =>
    let i := route (ShardKind.call_key σ call)
    (Lane.lock call (self.lanes i)).map (fun lane =>
      { self with
        lanes := Function.update self.lanes i lane
        holders := Function.update self.holders i thread
        past := Function.update self.past thread (self.past thread ∪ self.released i) })
  | .access i stamps =>
    let thread := self.holders i
    (Lane.access (self.lanes i)).bind (fun lane =>
      (store_all self.memory (self.past thread) (self.next_stores i) stamps).map
        (fun (memory, past) =>
          { self with
            lanes := Function.update self.lanes i lane
            memory := memory
            past := Function.update self.past thread past }))
  | .unlock i =>
    let thread := self.holders i
    let key := (self.lanes i).holder.map Prod.fst
    let n := (self.lanes i).order.findIdx (fun entry => some (ShardKind.key σ entry) = key)
    (Lane.unlock (self.lanes i)).map (fun lane =>
      { self with
        lanes := Function.update self.lanes i lane
        released := Function.update self.released i (self.past thread)
        handles := Function.update self.handles thread ((i, n) :: self.handles thread) })
  | .visit v source reload =>
    let thread := owner v
    ((self.visitors v).weak_step self.memory (self.past thread) source reload).map
      (fun (visitor, seen, memory, past) =>
        { self with
          visitors := Function.update self.visitors v visitor
          memory := memory
          past := Function.update self.past thread past
          handles := Function.update self.handles thread (seen ++ self.handles thread) })
  | .update thread i n stamp =>
    if (i, n) ∈ self.handles thread then
      (store self.memory (self.past thread) (.slots i (n / CHUNK_SIZE)) .slots .relaxed stamp).map
        (fun (memory, past) =>
          { self with
            memory := memory
            past := Function.update self.past thread past })
    else none
  | .meet thread other =>
    some { self with
      past := Function.update self.past thread (self.past thread ∪ self.past other)
      handles := Function.update self.handles thread (self.handles other ++ self.handles thread) }

/-- A schedule, from some state on. -/
def run [DecidableEq K] (route : K → Fin SHARD_COUNT) (owner : ℕ → ℕ)
    (self : WeakTraversals σ T K) (schedule : List (WeakTurn C)) :
    Option (WeakTraversals σ T K) :=
  schedule.foldlM (step route owner) self

/-! ## What threads know -/

/-- What is known to whoever has the mutex of a shard, or could take it now. -/
def knower (self : WeakTraversals σ T K) (i : Fin SHARD_COUNT) : Finset ℕ :=
  if (self.lanes i).holder.isSome then self.past (self.holders i) else self.released i

/-- Some knowledge of a shard's writes shows at least `b` entries. -/
def Shows (memory : List (Event Loc (Cell T))) (past : Finset ℕ) (i : Fin SHARD_COUNT) (b : ℕ) :
    Prop :=
  ∃ ws, ws ≠ [] ∧ ws <+: shard_writes i memory ∧ Knows past ws
    ∧ b ≤ (progress_of ws).visible CHUNK_SIZE

theorem Shows.mono {memory memory' : List (Event Loc (Cell T))} {past past' : Finset ℕ}
    {i : Fin SHARD_COUNT} {b : ℕ} (h : Shows memory past i b) (hmemory : memory <+: memory')
    (hpast : past ⊆ past') : Shows memory' past' i b := by
  obtain ⟨ws, hne, hws, hknows, hb⟩ := h
  exact ⟨ws, hne, hws.trans (writes_mono hmemory), hknows.mono hpast, hb⟩

/-- What is known to a traversal. As far as that goes it is as good as any. -/
structure Follows (due : Fin SHARD_COUNT → ℕ) (orders : Fin SHARD_COUNT → List T)
    (memory : List (Event Loc (Cell T))) (past : Finset ℕ) (visitor : Visitor T)
    (known : Fin SHARD_COUNT → List (Event Loc (Cell T) × ℕ)) : Prop where
  nonempty : ∀ i, known i ≠ []
  beginning : ∀ i, known i <+: shard_writes i memory
  knows : ∀ i, Knows past (known i)
  visitor : visitor.Inv due orders (fun i => progress_of (known i))

/-- What holds of the memory that the shards share. -/
structure Shared (memory : List (Event Loc (Cell T))) (orders : Fin SHARD_COUNT → List T)
    (stores : Fin SHARD_COUNT → Chunks T) (ps : Fin SHARD_COUNT → Progress) : Prop where
  safe : Safe memory
  shards : ∀ i, ShardMemory i memory (orders i) (stores i) (ps i)

/-- A thread has made loads. -/
structure Extends (memory : List (Event Loc (Cell T))) (past : Finset ℕ)
    (memory' : List (Event Loc (Cell T))) (past' : Finset ℕ) : Prop where
  writes : ∀ i, shard_writes i memory' = shard_writes i memory
  memory : memory <+: memory'
  past : past ⊆ past'

/-- What holds after every turn. -/
structure Inv (owner : ℕ → ℕ) (due : ℕ → Fin SHARD_COUNT → ℕ) (ps : Fin SHARD_COUNT → Progress)
    (s : WeakTraversals σ T K) : Prop where
  lanes : ∀ i, (s.lanes i).Inv (ps i)
  shared : Shared s.memory (fun i => (s.lanes i).order)
    (fun i => ShardKind.store (s.lanes i).shard) ps
  /-- Who has the mutex knows of all writes of the shard. -/
  locked : ∀ i, Knows (s.knower i) (shard_writes i s.memory)
  first : ∀ thread i, Shows s.memory (s.past thread) i 0
  handles : ∀ thread, ∀ h ∈ s.handles thread, Shows s.memory (s.past thread) h.1 (h.2 + 1)
  visitors : ∀ v, ∃ known, Follows (due v) (fun i => (s.lanes i).order) s.memory
    (s.past (owner v)) (s.visitors v) known
  /-- A traversal gives its thread handles to what it visits. -/
  visited : ∀ v i n, n < ((s.visitors v).visited i).length → (i, n) ∈ s.handles (owner v)

section Follows

variable {due due' : Fin SHARD_COUNT → ℕ} {orders orders' : Fin SHARD_COUNT → List T}
  {memory memory' : List (Event Loc (Cell T))} {past past' : Finset ℕ} {visitor : Visitor T}
  {known : Fin SHARD_COUNT → List (Event Loc (Cell T) × ℕ)}

/-- What others do does not disturb a traversal. -/
theorem Follows.mono (h : Follows due orders memory past visitor known)
    (hmemory : memory <+: memory') (hpast : past ⊆ past') (horders : ∀ i, orders i <+: orders' i) :
    Follows due orders' memory' past' visitor known where
  nonempty := h.nonempty
  beginning i := (h.beginning i).trans (writes_mono hmemory)
  knows i := (h.knows i).mono hpast
  visitor := h.visitor.mono (fun _ => Progress.Le.refl _) horders

/-- A traversal gets to know more of a shard. -/
theorem Follows.learn (h : Follows due orders memory past visitor known) {i : Fin SHARD_COUNT}
    {ws : List (Event Loc (Cell T) × ℕ)} (hle : known i <+: ws) (hws : ws <+: shard_writes i memory)
    (hknows : Knows past ws) (hgrows : (progress_of (known i)).Le (progress_of ws)) :
    Follows due orders memory past visitor (Function.update known i ws) where
  nonempty := (Function.forall_update_iff known (fun _ ws => ws ≠ [])).mpr
    ⟨fun hnil => h.nonempty i (List.prefix_nil.mp (hnil ▸ hle)), fun j _ => h.nonempty j⟩
  beginning := (Function.forall_update_iff known (fun j ws => ws <+: shard_writes j memory)).mpr
    ⟨hws, fun j _ => h.beginning j⟩
  knows := (Function.forall_update_iff known (fun _ ws => Knows past ws)).mpr
    ⟨hknows, fun j _ => h.knows j⟩
  visitor := h.visitor.mono
    ((Function.forall_update_iff known
      (fun j ws => (progress_of (known j)).Le (progress_of ws))).mpr
        ⟨hgrows, fun _ _ => Progress.Le.refl _⟩)
    (fun _ => List.prefix_rfl)

section Loads

variable {stores : Fin SHARD_COUNT → Chunks T} {ps : Fin SHARD_COUNT → Progress}
  {i : Fin SHARD_COUNT} {loc : Loc} {value : Cell T} {mode : Mode} {source : ℕ}
  {ws : List (Event Loc (Cell T) × ℕ)}

/-- Loading what is known to have been written makes no race. -/
theorem Shared.load (h : Shared memory orders stores ps)
    (hload : load memory past loc mode source = some (value, memory', past'))
    (hguarded : loc.Guarded i)
    (hws : ws <+: shard_writes i memory) (hknows : Knows past ws) (hwritten : content ws loc ≠ none)
    (hmode : mode = .plain → ∃ arc offset, loc = .entry i arc offset) :
    Shared memory' orders stores ps ∧ Extends memory past memory' past' := by
  obtain ⟨w, hw, hstore, rfl, rfl, -, rfl, rfl⟩ := load_spec hload
  obtain ⟨d, hd, hdloc⟩ := exists_of_content hwritten
  have hpast := subset_acquire past mode w source
  have hslots : ∀ j block, w.loc ≠ .slots j block := by
    intro j block hloc
    rw [hloc] at hguarded
    exact hguarded.elim
  have hframe := fun j => (h.shards j).frame
    (e := ⟨w.loc, w.value, w.stamp, false, mode, acquire past mode w source⟩)
    (fun hload => Bool.noConfusion hload)
    (fun block _ hloc => absurd hloc (hslots j block)) le_rfl
    (fun block hloc => absurd hloc (hslots j block))
  refine ⟨⟨⟨h.safe.race_free.append ?_, h.safe.sourced.append ?_, ?_⟩, fun j => (hframe j).2⟩,
    ⟨fun j => (hframe j).1, List.prefix_append _ _, hpast.trans (Finset.subset_insert _ _)⟩⟩
  · -- a store it conflicts with is the first to the location, which is known
    rintro j e he ⟨hloc, hconflict, hplain⟩
    have hestore : e.is_store = true := hconflict.resolve_right (fun h => Bool.noConfusion h)
    have hmem : (e, j) ∈ shard_writes i memory :=
      mem_writes.mpr ⟨he, hestore, by rw [hloc]; exact hguarded⟩
    have heplain : e.mode = .plain := by
      rcases hplain with hplain | hplain
      · exact hplain
      · obtain ⟨arc, offset, hentry⟩ := hmode hplain
        exact (h.shards i).plain _ hmem arc offset (hloc.trans hentry)
    have hread := (h.shards i).serial.mem_of_mode hws hd hmem (hdloc.trans hloc.symm)
      (by rw [heplain]; exact Mode.noConfusion)
    exact hpast (hknows _ hread (Finset.mem_insert_self _ _))
  · exact fun _ => ⟨w, List.mem_of_getElem? hw, hstore, rfl, rfl⟩
  · intro e he hload' hplain
    rcases List.mem_append.mp he with he | he
    · exact h.safe.plain_loads e he hload' hplain
    · obtain rfl := List.mem_singleton.mp he
      exact ⟨i, hmode hplain⟩

/-- A traversal loads an index or a length: it gets what was there at some time since what it knew,
and knows what was written by then. -/
theorem Follows.load (h : Follows due orders memory past visitor known)
    (hshared : Shared memory orders stores ps)
    (hload : ReleaseAcquire.load memory past loc .ordered source = some (value, memory', past'))
    (hguarded : loc.Guarded i) (hwritten : content (known i) loc ≠ none) :
    ∃ ws, Follows due orders memory' past' visitor (Function.update known i ws)
      ∧ content ws loc = some value ∧ Shown i (orders i) ws
      ∧ (progress_of (known i)).Le (progress_of ws)
      ∧ Shared memory' orders stores ps ∧ Extends memory past memory' past' := by
  obtain ⟨hshared', hextends⟩ := hshared.load hload hguarded (h.beginning i) (h.knows i) hwritten
    (fun hmode => Mode.noConfusion hmode)
  obtain ⟨ws, hle, hws, hknows, hcontent⟩ := (hshared.shards i).serial.load hload hguarded
    (h.beginning i) (h.knows i) hwritten
  have hgrows := (hshared.shards i).grows _ _ hle hws
  have hne : ws ≠ [] := fun hnil => h.nonempty i (List.prefix_nil.mp (hnil ▸ hle))
  exact ⟨ws, (h.mono hextends.memory hextends.past (fun _ => List.prefix_rfl)).learn hle
    (hextends.writes i ▸ hws) hknows hgrows, hcontent, (hshared.shards i).shown ws hne hws, hgrows,
    hshared', hextends⟩

/-- The index lists chunks that are there, and at least as many as are due. -/
theorem Follows.load_index (h : Follows due orders memory past visitor known)
    (hshared : Shared memory orders stores ps) (hv : visitor.shard < SHARD_COUNT)
    (hpc : visitor.pc = .start)
    (hload : ReleaseAcquire.load memory past (.index ⟨visitor.shard, hv⟩) .ordered source
      = some (value, memory', past')) :
    ∃ chunks known', value.to_visit = some chunks
      ∧ Follows due orders memory' past' { visitor with pc := .chunks chunks } known'
      ∧ Shared memory' orders stores ps ∧ Extends memory past memory' past' := by
  have hshown := (hshared.shards ⟨visitor.shard, hv⟩).shown _ (h.nonempty _) (h.beginning _)
  obtain ⟨ws, h', hcontent, hshown', -, hshared', hextends⟩ :=
    h.load hshared hload rfl (by rw [hshown.index]; exact Option.some_ne_none _)
  rw [hshown'.index] at hcontent
  obtain rfl := Option.some.inj hcontent
  have hat := h'.visitor.here ⟨visitor.shard, hv⟩ rfl
  have hdue := h'.visitor.due_le ⟨visitor.shard, hv⟩
  rw [hpc] at hat
  rw [Function.update_self] at hdue
  refine ⟨_, _, rfl, ⟨h'.nonempty, h'.beginning, h'.knows, h'.visitor.goto hv
    ⟨(progress_of ws).indexed, 0, ?_, ?_⟩⟩, hshared', hextends⟩
  · rw [List.range_eq_range', Nat.sub_zero]
  · rw [show (visitor.visited ⟨visitor.shard, hv⟩).length = 0 from hat, Function.update_self]
    exact before_first hdue

/-- The published length of a chunk covers what is due of it. -/
theorem Follows.load_len (h : Follows due orders memory past visitor known)
    (hshared : Shared memory orders stores ps) (hv : visitor.shard < SHARD_COUNT) {arc : ℕ}
    {rest : List ℕ} (hpc : visitor.pc = .chunks (arc :: rest))
    (hload : ReleaseAcquire.load memory past (.published_len ⟨visitor.shard, hv⟩ arc) .ordered
      source = some (value, memory', past')) :
    ∃ len known', value.len = some len
      ∧ Follows due orders memory' past' { visitor with pc := .reading arc len 0 rest } known'
      ∧ Shared memory' orders stores ps ∧ Extends memory past memory' past' := by
  have hshown := (hshared.shards ⟨visitor.shard, hv⟩).shown _ (h.nonempty _) (h.beginning _)
  have hat := h.visitor.here ⟨visitor.shard, hv⟩ rfl
  rw [hpc] at hat
  obtain ⟨d, c, hrest, hbefore⟩ := hat
  obtain ⟨m, hm⟩ : ∃ m, d - c = m + 1 := by
    cases hdc : d - c with
    | zero => simp [hdc] at hrest
    | succ m => exact ⟨m, rfl⟩
  rw [hm, List.range'_succ, List.cons.injEq] at hrest
  obtain ⟨rfl, rfl⟩ := hrest
  have hc : arc < d := by omega
  have hchunk := hc.trans_le (hbefore.indexed.trans hshown.good.indexed_le)
  obtain ⟨ws, h', hcontent, hshown', hle, hshared', hextends⟩ :=
    h.load hshared hload rfl (by rw [hshown.lens arc hchunk]; exact Option.some_ne_none _)
  have hchunk' := hc.trans_le ((hbefore.mono hle).indexed.trans hshown'.good.indexed_le)
  rw [hshown'.lens arc hchunk'] at hcontent
  obtain rfl := Option.some.inj hcontent
  have hdue := h'.visitor.due_le ⟨visitor.shard, hv⟩
  rw [Function.update_self] at hdue
  refine ⟨_, _, rfl, ⟨h'.nonempty, h'.beginning, h'.knows, h'.visitor.goto hv
    ⟨d, by rw [show d - (arc + 1) = m by omega], ?_⟩⟩, hshared', hextends⟩
  rw [Function.update_self]
  exact (hbefore.mono hle).enter hshown'.good hdue hc

theorem Extends.trans {memory₁ : List (Event Loc (Cell T))} {past₁ : Finset ℕ}
    (h : Extends memory past memory₁ past₁) (h' : Extends memory₁ past₁ memory' past') :
    Extends memory past memory' past' :=
  ⟨fun i => (h'.writes i).trans (h.writes i), h.memory.trans h'.memory, h.past.trans h'.past⟩

/-- The length a traversal loads for the assertion covers the entry it goes on to read. -/
theorem Follows.load_again (h : Follows due orders memory past visitor known)
    (hshared : Shared memory orders stores ps) (hv : visitor.shard < SHARD_COUNT)
    {arc len offset : ℕ} {rest : List ℕ} (hpc : visitor.pc = .reading arc len offset rest)
    (ho : offset < len)
    (hload : ReleaseAcquire.load memory past (.published_len ⟨visitor.shard, hv⟩ arc) .ordered
      source = some (value, memory', past')) :
    ∃ len' known', value.len = some len' ∧ offset < len'
      ∧ Follows due orders memory' past' visitor known'
      ∧ Shared memory' orders stores ps ∧ Extends memory past memory' past' := by
  have hshown := (hshared.shards ⟨visitor.shard, hv⟩).shown _ (h.nonempty _) (h.beginning _)
  have hat := h.visitor.here ⟨visitor.shard, hv⟩ rfl
  rw [hpc] at hat
  obtain ⟨d, -, hwithin⟩ := hat
  have hchunk := hwithin.chunk.trans_le (hwithin.indexed.trans hshown.good.indexed_le)
  obtain ⟨ws, h', hcontent, hshown', hle, hshared', hextends⟩ :=
    h.load hshared hload rfl (by rw [hshown.lens arc hchunk]; exact Option.some_ne_none _)
  replace hwithin := hwithin.mono hle
  have hchunk' := hwithin.chunk.trans_le (hwithin.indexed.trans hshown'.good.indexed_le)
  rw [hshown'.lens arc hchunk'] at hcontent
  obtain rfl := Option.some.inj hcontent
  exact ⟨_, _, rfl, (hwithin.sees ho).1, h', hshared', hextends⟩

/-- The entry below a length that a traversal has loaded is known to have been written, and it is
the next one of the registration order. -/
theorem Follows.next_entry (h : Follows due orders memory past visitor known)
    (hshared : Shared memory orders stores ps) (hv : visitor.shard < SHARD_COUNT)
    {arc len offset : ℕ} {rest : List ℕ} (hpc : visitor.pc = .reading arc len offset rest)
    (ho : offset < len) :
    ∃ e, Follows due orders memory past (Visitor.visit ⟨visitor.shard, hv⟩ e
        { visitor with pc := .reading arc len (offset + 1) rest }) known
      ∧ content (known ⟨visitor.shard, hv⟩) (.entry ⟨visitor.shard, hv⟩ arc offset)
        = some (.entry e)
      ∧ (visitor.visited ⟨visitor.shard, hv⟩).length
        < (progress_of (known ⟨visitor.shard, hv⟩)).visible CHUNK_SIZE := by
  have hshown := (hshared.shards ⟨visitor.shard, hv⟩).shown _ (h.nonempty _) (h.beginning _)
  have hat := h.visitor.here ⟨visitor.shard, hv⟩ rfl
  rw [hpc] at hat
  obtain ⟨d, hrest, hwithin⟩ := hat
  obtain ⟨hlen, hvisible⟩ := hwithin.sees ho
  -- where the next entry lies
  have hoffset : offset < CHUNK_SIZE := hlen.trans_le (min_le_left _ _)
  have hplace : (visitor.visited ⟨visitor.shard, hv⟩).length / CHUNK_SIZE = arc
      ∧ (visitor.visited ⟨visitor.shard, hv⟩).length % CHUNK_SIZE = offset := by
    rw [hwithin.taken, Nat.mul_add_div CHUNK_SIZE_pos, Nat.div_eq_of_lt hoffset, Nat.add_zero,
      Nat.mul_add_mod, Nat.mod_eq_of_lt hoffset]
    exact ⟨rfl, rfl⟩
  obtain ⟨e, hentry, hcontent⟩ := hshown.entries _
    (hvisible.trans_le ((min_le_left _ _).trans hshown.good.published_le))
  rw [hplace.1, hplace.2] at hcontent
  exact ⟨e, ⟨h.nonempty, h.beginning, h.knows,
    h.visitor.visit hv hentry hvisible ⟨d, hrest, hwithin.next ho⟩⟩, hcontent, hvisible⟩

/-- That entry is what the traversal reads. -/
theorem Follows.read (h : Follows due orders memory past visitor known)
    (hshared : Shared memory orders stores ps) (hv : visitor.shard < SHARD_COUNT)
    {arc len offset : ℕ} {rest : List ℕ} (hpc : visitor.pc = .reading arc len offset rest)
    (ho : offset < len) {entry : Option T}
    (hread : read_entry memory past ⟨visitor.shard, hv⟩ arc offset source
      = some (entry, memory', past')) :
    ∃ e, entry = some e
      ∧ Follows due orders memory' past'
        (Visitor.visit ⟨visitor.shard, hv⟩ e
          { visitor with pc := .reading arc len (offset + 1) rest }) known
      ∧ (visitor.visited ⟨visitor.shard, hv⟩).length
        < (progress_of (known ⟨visitor.shard, hv⟩)).visible CHUNK_SIZE
      ∧ Shared memory' orders stores ps ∧ Extends memory past memory' past' := by
  obtain ⟨e, hvisit, hcontent, hvisible⟩ := h.next_entry hshared hv hpc ho
  obtain ⟨⟨value, memory₁, past₁⟩, hload, heq⟩ := Option.map_eq_some_iff.mp hread
  obtain ⟨rfl, hstate⟩ := Prod.mk.inj heq
  obtain ⟨rfl, rfl⟩ := Prod.mk.inj hstate
  have hne : content (known ⟨visitor.shard, hv⟩) (.entry ⟨visitor.shard, hv⟩ arc offset)
      ≠ none := by
    rw [hcontent]
    exact Option.some_ne_none _
  obtain ⟨hshared', hextends⟩ := hshared.load hload rfl (h.beginning _) (h.knows _) hne
    (fun _ => ⟨arc, offset, rfl⟩)
  -- an entry is written only once, so there is nothing else to read
  have hvalue := (hshared.shards ⟨visitor.shard, hv⟩).serial.load_plain hload rfl
    (h.beginning _) (h.knows _) hne (fun d hd hloc => by
      rw [(hshared.shards ⟨visitor.shard, hv⟩).plain d hd arc offset hloc]
      exact Mode.noConfusion)
  rw [hcontent] at hvalue
  obtain rfl := Option.some.inj hvalue
  exact ⟨e, rfl, hvisit.mono hextends.memory hextends.past (fun i => List.prefix_rfl), hvisible,
    hshared', hextends⟩

/-- With the assertion or without, the entry is there and next in the registration order. -/
theorem Follows.get (h : Follows due orders memory past visitor known)
    (hshared : Shared memory orders stores ps) (hv : visitor.shard < SHARD_COUNT)
    {arc len offset : ℕ} {reload : Option ℕ} {rest : List ℕ}
    (hpc : visitor.pc = .reading arc len offset rest) (ho : offset < len) {entry : Option T}
    (hget : weak_get memory past ⟨visitor.shard, hv⟩ arc offset source reload
      = some (entry, memory', past')) :
    ∃ e known', entry = some e
      ∧ Follows due orders memory' past'
        (Visitor.visit ⟨visitor.shard, hv⟩ e
          { visitor with pc := .reading arc len (offset + 1) rest }) known'
      ∧ (visitor.visited ⟨visitor.shard, hv⟩).length
        < (progress_of (known' ⟨visitor.shard, hv⟩)).visible CHUNK_SIZE
      ∧ Shared memory' orders stores ps ∧ Extends memory past memory' past' := by
  cases reload with
  | none =>
    obtain ⟨e, rfl, hvisit, hvisible, hshared', hextends⟩ := h.read hshared hv hpc ho hget
    exact ⟨e, known, rfl, hvisit, hvisible, hshared', hextends⟩
  | some again =>
    obtain ⟨⟨value, memory₁, past₁⟩, hload, hget⟩ := Option.bind_eq_some_iff.mp hget
    obtain ⟨len', known₁, hlen, ho', h₁, hshared₁, hextends₁⟩ :=
      h.load_again hshared hv hpc ho hload
    simp only [hlen, if_pos ho'] at hget
    obtain ⟨e, rfl, hvisit, hvisible, hshared', hextends⟩ := h₁.read hshared₁ hv hpc ho hget
    exact ⟨e, known₁, rfl, hvisit, hvisible, hshared', hextends₁.trans hextends⟩

theorem Extends.refl (memory : List (Event Loc (Cell T))) (past : Finset ℕ) :
    Extends memory past memory past :=
  ⟨fun _ => rfl, List.prefix_rfl, subset_rfl⟩

/-- What a traversal has got after a step. -/
structure Stepped (due : Fin SHARD_COUNT → ℕ) (orders : Fin SHARD_COUNT → List T)
    (memory : List (Event Loc (Cell T))) (past : Finset ℕ) (visitor visitor' : Visitor T)
    (seen : List (Fin SHARD_COUNT × ℕ)) : Prop where
  follows : ∃ known, Follows due orders memory past visitor' known
  shows_seen : ∀ h ∈ seen, Shows memory past h.1 (h.2 + 1)
  visited : ∀ i n, n < (visitor'.visited i).length →
    n < (visitor.visited i).length ∨ (i, n) ∈ seen

/-- A step that visits nothing. -/
theorem Follows.stepped {visitor' : Visitor T} (h : Follows due orders memory past visitor' known)
    (hvisited : visitor'.visited = visitor.visited) :
    Stepped due orders memory past visitor visitor' [] where
  follows := ⟨known, h⟩
  shows_seen := fun _ h => absurd h List.not_mem_nil
  visited := fun i n hn => .inl (by rwa [hvisited] at hn)

/-- A traversal's own step. -/
theorem Follows.step {visitor' : Visitor T} {seen : List (Fin SHARD_COUNT × ℕ)}
    {reload : Option ℕ} (h : Follows due orders memory past visitor known)
    (hshared : Shared memory orders stores ps)
    (hs : visitor.weak_step memory past source reload = some (visitor', seen, memory', past')) :
    Stepped due orders memory' past' visitor visitor' seen
      ∧ Shared memory' orders stores ps ∧ Extends memory past memory' past' := by
  unfold Visitor.weak_step at hs
  by_cases hv : visitor.shard < SHARD_COUNT
  swap
  · simp [hv] at hs
  rw [dif_pos hv] at hs
  dsimp only at hs
  rcases hpc : visitor.pc with _ | (_ | ⟨arc, rest⟩) | ⟨arc, len, offset, rest⟩ | _
  · simp only [hpc] at hs
    obtain ⟨⟨value, memory₁, past₁⟩, hload, heq⟩ := Option.map_eq_some_iff.mp hs
    obtain ⟨chunks, known', hchunks, h', hshared', hextends⟩ := h.load_index hshared hv hpc hload
    simp only [hchunks, Option.map_some, Option.getD_some, Prod.mk.injEq] at heq
    obtain ⟨rfl, rfl, rfl, rfl⟩ := heq
    exact ⟨h'.stepped rfl, hshared', hextends⟩
  · -- no chunk is left: all that was due of this shard has been visited
    simp only [hpc, Option.some.injEq, Prod.mk.injEq] at hs
    obtain ⟨rfl, rfl, rfl, rfl⟩ := hs
    have hat := h.visitor.here ⟨visitor.shard, hv⟩ rfl
    rw [hpc] at hat
    obtain ⟨d, c, hrest, hbefore⟩ := hat
    have hzero : d - c = 0 := List.range'_eq_nil_iff.mp hrest.symm
    have hle := hbefore.chunk
    have hnext := h.visitor.next hv (hbefore.last (by omega))
    exact ⟨Follows.stepped ⟨h.nonempty, h.beginning, h.knows, hnext⟩ rfl, hshared,
      Extends.refl _ _⟩
  · simp only [hpc] at hs
    obtain ⟨⟨value, memory₁, past₁⟩, hload, heq⟩ := Option.map_eq_some_iff.mp hs
    obtain ⟨len, known', hlen, h', hshared', hextends⟩ := h.load_len hshared hv hpc hload
    simp only [hlen, Option.map_some, Option.getD_some, Prod.mk.injEq] at heq
    obtain ⟨rfl, rfl, rfl, rfl⟩ := heq
    exact ⟨h'.stepped rfl, hshared', hextends⟩
  · simp only [hpc] at hs
    by_cases ho : offset < len
    · rw [if_pos ho] at hs
      obtain ⟨⟨entry, memory₁, past₁⟩, hget, heq⟩ := Option.map_eq_some_iff.mp hs
      obtain ⟨e, known', rfl, h', hvisible, hshared', hextends⟩ := h.get hshared hv hpc ho hget
      simp only [Prod.mk.injEq] at heq
      obtain ⟨rfl, rfl, rfl, rfl⟩ := heq
      refine ⟨⟨⟨known', h'⟩, ?_, ?_⟩, hshared', hextends⟩
      · intro handle hhandle
        obtain rfl := List.mem_singleton.mp hhandle
        exact ⟨_, h'.nonempty _, h'.beginning _, h'.knows _, hvisible⟩
      · intro i n hn
        by_cases hi : i = ⟨visitor.shard, hv⟩
        · subst hi
          have hvisited : (Visitor.visit ⟨visitor.shard, hv⟩ e
              { visitor with pc := .reading arc len (offset + 1) rest }).visited
                ⟨visitor.shard, hv⟩ = visitor.visited ⟨visitor.shard, hv⟩ ++ [e] :=
            Function.update_self _ _ _
          rw [hvisited, List.length_append, List.length_singleton] at hn
          rcases Nat.lt_succ_iff_lt_or_eq.mp hn with hn | rfl
          · exact .inl hn
          · exact .inr (List.mem_singleton_self _)
        · have hvisited : (Visitor.visit ⟨visitor.shard, hv⟩ e
              { visitor with pc := .reading arc len (offset + 1) rest }).visited i
                = visitor.visited i := Function.update_of_ne hi _ _
          rw [hvisited] at hn
          exact .inl hn
    · -- the end of the chunk
      rw [if_neg ho, Option.some.injEq] at hs
      simp only [Prod.mk.injEq] at hs
      obtain ⟨rfl, rfl, rfl, rfl⟩ := hs
      have hat := h.visitor.here ⟨visitor.shard, hv⟩ rfl
      rw [hpc] at hat
      obtain ⟨d, hrest, hwithin⟩ := hat
      have hgoto : ({ visitor with pc := .chunks rest } : Visitor T).Inv due orders _ :=
        h.visitor.goto hv ⟨d, arc + 1, hrest, hwithin.leave (not_lt.mp ho)⟩
      exact ⟨Follows.stepped ⟨h.nonempty, h.beginning, h.knows, hgoto⟩ rfl, hshared,
        Extends.refl _ _⟩
  · have hat := h.visitor.here ⟨visitor.shard, hv⟩ rfl
    rw [hpc] at hat
    -- the invariant rules a fault out
    exact hat.elim

/-- What is known to have been written can be loaded. -/
theorem Shared.exists_load (h : Shared memory orders stores ps) (hws : ws <+: shard_writes i memory)
    (hwritten : content ws loc = some value) (hguarded : loc.Guarded i) (past : Finset ℕ)
    (mode : Mode) : ∃ source result, ReleaseAcquire.load memory past loc mode source
      = some result := by
  obtain ⟨d, hd, hloc⟩ := exists_of_content (hwritten ▸ Option.some_ne_none _)
  obtain ⟨source, hsource⟩ := (h.shards i).serial.exists_load h.safe.sourced hguarded
    (content_ne_none (hws.subset hd) hloc) past mode
  exact ⟨source, Option.isSome_iff_exists.mp hsource⟩

/-- What a traversal is about to read can be read, with the assertion or without. -/
theorem Follows.exists_get (h : Follows due orders memory past visitor known)
    (hshared : Shared memory orders stores ps) (hv : visitor.shard < SHARD_COUNT)
    {arc len offset : ℕ} {rest : List ℕ} (hpc : visitor.pc = .reading arc len offset rest)
    (ho : offset < len) (debug : Bool) :
    ∃ source reload, reload.isSome = debug
      ∧ (weak_get memory past ⟨visitor.shard, hv⟩ arc offset source reload).isSome = true := by
  cases debug with
  | false =>
    obtain ⟨e, -, hcontent, -⟩ := h.next_entry hshared hv hpc ho
    obtain ⟨source, result, hload⟩ := hshared.exists_load (h.beginning _) hcontent rfl past .plain
    exact ⟨source, none, rfl, by simp [weak_get, read_entry, hload]⟩
  | true =>
    have hshown := (hshared.shards ⟨visitor.shard, hv⟩).shown _ (h.nonempty _) (h.beginning _)
    have hat := h.visitor.here ⟨visitor.shard, hv⟩ rfl
    rw [hpc] at hat
    obtain ⟨d, -, hwithin⟩ := hat
    have hchunk := hwithin.chunk.trans_le (hwithin.indexed.trans hshown.good.indexed_le)
    obtain ⟨again, ⟨value, memory₁, past₁⟩, hload⟩ := hshared.exists_load
      (h.beginning ⟨visitor.shard, hv⟩) (hshown.lens arc hchunk) rfl past .ordered
    obtain ⟨len', known₁, hlen, ho', h₁, hshared₁, -⟩ := h.load_again hshared hv hpc ho hload
    obtain ⟨e, -, hcontent, -⟩ := h₁.next_entry hshared₁ hv hpc ho
    obtain ⟨source, result, hload₁⟩ :=
      hshared₁.exists_load (h₁.beginning _) hcontent rfl past₁ .plain
    exact ⟨source, some again, rfl, by simp [weak_get, read_entry, hload, hlen, ho', hload₁]⟩

/-- A traversal can always take its next step, in a debug build and in a release build. -/
theorem Follows.exists_step (h : Follows due orders memory past visitor known)
    (hshared : Shared memory orders stores ps) (hv : visitor.shard < SHARD_COUNT) (debug : Bool) :
    ∃ source reload, reload.isSome = debug
      ∧ (visitor.weak_step memory past source reload).isSome = true := by
  have hshown := (hshared.shards ⟨visitor.shard, hv⟩).shown _ (h.nonempty _) (h.beginning _)
  have hat := h.visitor.here ⟨visitor.shard, hv⟩ rfl
  -- the other steps do not assert anything
  obtain ⟨reload, hreload⟩ : ∃ reload : Option ℕ, reload.isSome = debug := by
    cases debug with
    | false => exact ⟨none, rfl⟩
    | true => exact ⟨some 0, rfl⟩
  rcases hpc : visitor.pc with _ | (_ | ⟨arc, rest⟩) | ⟨arc, len, offset, rest⟩ | _
  · obtain ⟨source, result, hload⟩ := hshared.exists_load (h.beginning ⟨visitor.shard, hv⟩)
      hshown.index rfl past .ordered
    exact ⟨source, reload, hreload, by simp [Visitor.weak_step, hv, hpc, hload]⟩
  · exact ⟨0, reload, hreload, by simp [Visitor.weak_step, hv, hpc]⟩
  · rw [hpc] at hat
    obtain ⟨d, c, hrest, hbefore⟩ := hat
    have hc : arc = c ∧ c < d := by
      cases hdc : d - c with
      | zero => simp [hdc] at hrest
      | succ m =>
        rw [hdc, List.range'_succ, List.cons.injEq] at hrest
        exact ⟨hrest.1, by omega⟩
    have hchunk := hc.2.trans_le (hbefore.indexed.trans hshown.good.indexed_le)
    obtain ⟨source, result, hload⟩ := hshared.exists_load (h.beginning ⟨visitor.shard, hv⟩)
      (hshown.lens c hchunk) rfl past .ordered
    exact ⟨source, reload, hreload, by simp [Visitor.weak_step, hv, hpc, hc.1, hload]⟩
  · by_cases ho : offset < len
    · obtain ⟨source, reload, hdebug, hget⟩ := h.exists_get hshared hv hpc ho debug
      exact ⟨source, reload, hdebug, by simpa [Visitor.weak_step, hv, hpc, ho] using hget⟩
    · exact ⟨0, reload, hreload, by simp [Visitor.weak_step, hv, hpc, ho]⟩
  · rw [hpc] at hat
    exact hat.elim

end Loads

end Follows

end WeakTraversals

end BrzMetrics
