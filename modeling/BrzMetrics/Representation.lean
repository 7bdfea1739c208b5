/-
The representation of a shard, for the timing shard and the scalar shard.

`ShardRep` says how the fields of a shard hold its entries: the slot vector, the
chunk vector, the chunks behind it, the published index, the count and the hash
maps. It is what the unsafe reads, writes and drops of `MetaChunk` rely on. It
follows from the invariant that every registration keeps (`Holds.rep`).

The writes themselves are those of the calls' accesses (`Writers`), one call after
the other (`trace`). Whenever an entry is written, the assertions of
`MetaChunk::publish` hold and the place was never written before (`Accepts`), and
over all calls every place is written at most once, in order (`Published`).
-/
import BrzMetrics.Writers

set_option autoImplicit false

namespace BrzMetrics

open ChunkLog KeyedStore

/-! ## Dropping -/

/-- `MetaChunk::drop`: the entries it drops. `none` stands for an index out of bounds or for
dropping memory that was never initialized. -/
def MetaChunk.drop {T : Type} (self : MetaChunk T) : Option (List T) :=
  (List.range self.published_len).mapM self.get

/-! ## The invariant -/

/-- A shard's storage and its hash maps, as one lookup `find`, hold the entries `log`. A slot is
named by its block and offset. -/
structure ShardRep {T K P : Type} (key : T → K) (item : T → P) (slot : ℕ → ℕ → P)
    (store : Chunks T) (find : K → Option P) (log : List T) : Prop where
  len : store.len = log.length
  slots : store.slots.length = store.len ⌈/⌉ CHUNK_SIZE
  chunks : store.chunks.length = store.len ⌈/⌉ CHUNK_SIZE
  /-- Different positions of the vectors are different blocks and different chunks. -/
  slots_nodup : store.slots.Nodup
  chunks_nodup : store.chunks.Nodup
  /-- All chunks but the last are full. -/
  full : ∀ c arc, c + 1 < store.chunks.length → store.chunks[c]? = some arc →
    (store.deref arc).published_len = CHUNK_SIZE
  sum : (store.chunks.map (fun arc => (store.deref arc).published_len)).sum = store.len
  index : store.index = store.chunks
  /-- Entry `i` is stored where it belongs, and points to the slot at the same position. -/
  stored : ∀ i (h : i < log.length), ∃ arc block,
    store.chunks[i / CHUNK_SIZE]? = some arc ∧ store.slots[i / CHUNK_SIZE]? = some block
      ∧ (store.deref arc).get (i % CHUNK_SIZE) = some log[i]
      ∧ item log[i] = slot block (i % CHUNK_SIZE)
  /-- The maps and the entries are in bijection. -/
  keys : Set.BijOn (fun i : Fin log.length => (key log[i], item log[i])) Set.univ
    {known | find known.1 = some known.2}
  /-- What is initialized is exactly what is published. -/
  initialized : ∀ arc ∈ store.chunks, ∀ offset,
    ((store.deref arc).get offset).isSome = true ↔ offset < (store.deref arc).published_len
  /-- Dropping the chunks drops the entries, each once. -/
  dropped : ∃ parts, store.chunks.mapM (fun arc => (store.deref arc).drop) = some parts
    ∧ parts.flatten = log

section Rep

variable {T K P : Type} {key : T → K} {item : T → P} {at_ : ℕ → P} {slot : ℕ → ℕ → P}
  {store : Chunks T} {find : K → Option P} {log : List T}

theorem chunkCount_eq_ceilDiv (n : ℕ) : chunkCount CHUNK_SIZE n = n ⌈/⌉ CHUNK_SIZE := by
  rw [Nat.ceilDiv_eq_add_pred_div]
  rfl

/-- Distinct keys, and slots determined by keys, make the maps and the entries a bijection. -/
theorem Holds.bijOn (h : Holds key item at_ store find log) :
    Set.BijOn (fun i : Fin log.length => (key log[i], item log[i])) Set.univ
      {known | find known.1 = some known.2} := by
  refine ⟨?_, ?_, ?_⟩
  · intro i _
    exact (h.find _ _).mpr ⟨log[i], List.getElem_mem _, rfl, rfl⟩
  · intro i _ j _ heq
    have hentry : log[i] = log[j] := List.inj_on_of_nodup_map h.nodup (List.getElem_mem _)
      (List.getElem_mem _) (Prod.mk.inj heq).1
    exact Fin.ext ((List.Nodup.getElem_inj_iff h.nodup.of_map).mp hentry)
  · rintro ⟨k, p⟩ hfind
    obtain ⟨entry, hentry, rfl, rfl⟩ := (h.find k p).mp hfind
    obtain ⟨i, hi, rfl⟩ := List.getElem_of_mem hentry
    exact ⟨⟨i, hi⟩, Set.mem_univ _, rfl⟩

/-- What a chunk of a settled log shows is what has been written to it. -/
theorem isSome_get_iff (h : store.Shape log (settled CHUNK_SIZE log.length)) {arc : ℕ}
    (harc : arc < chunkCount CHUNK_SIZE log.length) (offset : ℕ) :
    ((store.deref arc).get offset).isSome = true ↔ offset < (store.deref arc).published_len := by
  have hlen : (store.deref arc).published_len = min CHUNK_SIZE (log.length - CHUNK_SIZE * arc) :=
    h.lens arc harc
  rw [hlen, lt_min_iff]
  by_cases ho : offset < CHUNK_SIZE
  · rw [h.entries arc harc offset ho, ← Option.ne_none_iff_isSome, Ne, List.getElem?_eq_none_iff]
    omega
  · -- beyond the chunk there is nothing to read
    rw [MetaChunk.get, dif_neg ho]
    exact iff_of_false Bool.false_ne_true (fun h' => ho h'.1)

/-- The invariant of a shard gives its representation. -/
theorem Holds.rep (h : Holds key item at_ store find log)
    (hat : ∀ n, at_ n = slot (n / CHUNK_SIZE) (n % CHUNK_SIZE)) :
    ShardRep key item slot store find log := by
  have hshape := h.store
  have hchunks : store.chunks = List.range (chunkCount CHUNK_SIZE log.length) := hshape.chunks
  have hslots : store.slots = List.range (chunkCount CHUNK_SIZE log.length) := hshape.slots
  have hindex : store.index = List.range (chunkCount CHUNK_SIZE log.length) := hshape.index
  have hlen : store.len = log.length := hshape.len
  have harc : ∀ arc ∈ store.chunks, arc < chunkCount CHUNK_SIZE log.length := by
    intro arc hmem
    rw [hchunks] at hmem
    exact List.mem_range.mp hmem
  refine
    { len := hlen
      slots := by rw [hslots, List.length_range, hlen, chunkCount_eq_ceilDiv]
      chunks := by rw [hchunks, List.length_range, hlen, chunkCount_eq_ceilDiv]
      slots_nodup := hslots ▸ List.nodup_range
      chunks_nodup := hchunks ▸ List.nodup_range
      full := ?_
      sum := ?_
      index := hindex.trans hchunks.symm
      stored := ?_
      keys := h.bijOn
      initialized := fun arc hmem => isSome_get_iff hshape (harc arc hmem)
      dropped := ?_ }
  · -- a chunk before the last one was full before the next one was pushed
    intro c arc hc hget
    have hlast : c + 1 < (settled CHUNK_SIZE log.length).indexed := by
      rwa [hchunks, List.length_range] at hc
    obtain rfl : c = arc := by
      rw [hchunks, List.getElem?_range (by rw [hchunks, List.length_range] at hc; omega)] at hget
      exact Option.some.inj hget
    rw [hshape.lens c (Nat.lt_of_succ_lt hlast)]
    exact chunkLen_full (good_settled CHUNK_SIZE_pos _) (Progress.Le.refl _) hlast
  · have hsum := hshape.published_len
    rwa [Chunks.published_len, hindex, ← hchunks, ← hlen] at hsum
  · intro i hi
    have hc : i / CHUNK_SIZE < chunkCount CHUNK_SIZE log.length :=
      (Nat.div_lt_of_lt_mul (hi.trans_le (le_mul_chunkCount CHUNK_SIZE_pos _)))
    refine ⟨i / CHUNK_SIZE, i / CHUNK_SIZE, ?_, ?_, ?_, ?_⟩
    · rw [hchunks, List.getElem?_range hc]
    · rw [hslots, List.getElem?_range hc]
    · rw [hshape.entries _ hc _ (Nat.mod_lt _ CHUNK_SIZE_pos), Nat.div_add_mod,
        List.getElem?_eq_getElem hi]
    · -- the entry was given the slot of its position
      have hitem := congrArg (fun l => l[i]?) h.items
      simp only [List.getElem?_map, List.getElem?_eq_getElem hi, Option.map_some,
        List.getElem?_range hi, Option.some.injEq] at hitem
      rw [hitem, hat]
  · -- a drop reads what a traversal reads
    have hall := hshape.for_each
    rw [Chunks.for_each, hindex, ← hchunks] at hall
    obtain ⟨parts, hparts, hflat⟩ := Option.bind_eq_some_iff.mp hall
    exact ⟨parts, hparts, Option.some.inj hflat⟩

end Rep

/-! ## The writes of a call -/

/-- An entry can be published to chunk `arc` at `offset`: both vectors have the chunk, the
assertions of `MetaChunk::publish` hold, and nothing was written there before. -/
structure Chunks.Accepts {T : Type} (s : Chunks T) (arc offset : ℕ) : Prop where
  slot : s.slots[arc]? = some arc
  chunk : s.chunks[arc]? = some arc
  offset_lt : offset < CHUNK_SIZE
  published : (s.deref arc).published_len = offset
  free : (s.deref arc).get offset = none

namespace ShardAccess

variable {T : Type} {order : List T}

/-- The place an access writes an entry to. -/
def target : ShardAccess T → Option (ℕ × ℕ)
  | .write_entry arc offset _ => some (arc, offset)
  | .push_chunk => none
  | .store_published_len _ _ => none
  | .count => none
  | .store_index => none
  | .insert_key _ => none

/-- The place of position `i` of the log. -/
def place (i : ℕ) : ℕ × ℕ := (i / CHUNK_SIZE, i % CHUNK_SIZE)

/-- A program writes the positions that the log still lacks, in order. -/
theorem Program.targets {todo : List (ShardAccess T)} : ∀ {p : Progress}, Program order p todo →
    todo.filterMap target = (List.range' p.written (order.length - p.written)).map place := by
  induction todo with
  | nil =>
    intro p h
    rw [show p.written = order.length from congrArg Progress.written h, Nat.sub_self]
    rfl
  | cons a todo ih =>
    intro p h
    obtain ⟨-, hfits, hrest⟩ := h
    have htail := ih hrest
    cases a with
    | write_entry arc offset entry =>
      obtain ⟨rfl, rfl, hentry⟩ := hfits
      have hlt := (List.getElem?_eq_some_iff.mp hentry).1
      have hcount : order.length - p.written = order.length - (p.written + 1) + 1 := by omega
      rw [List.filterMap_cons_some (f := target) rfl, htail, hcount, List.range'_succ,
        List.map_cons]
      rfl
    | push_chunk => rwa [List.filterMap_cons_none rfl]
    | store_published_len arc len => rwa [List.filterMap_cons_none rfl]
    | count => rwa [List.filterMap_cons_none rfl]
    | store_index => rwa [List.filterMap_cons_none rfl]
    | insert_key entry => rwa [List.filterMap_cons_none rfl]

/-- Wherever a program writes, the storage is ready for it. -/
theorem Program.accepts {before after : List (ShardAccess T)} {arc offset : ℕ} {entry : T} :
    ∀ {s : Chunks T} {p : Progress}, s.Shape (order.take p.written) p → Good CHUNK_SIZE p →
      Program order p (before ++ .write_entry arc offset entry :: after) →
      (before.foldl (fun s a => a.on_chunks s) s).Accepts arc offset := by
  induction before with
  | nil =>
    intro s p hs hg h
    obtain ⟨⟨hroom, hpublished⟩, ⟨rfl, rfl, -⟩, -⟩ := h
    have harc : p.written / CHUNK_SIZE < p.chunks := Nat.div_lt_of_lt_mul hroom
    have hpos := Nat.div_add_mod p.written CHUNK_SIZE
    have hmod := Nat.mod_lt p.written CHUNK_SIZE_pos
    refine ⟨?_, ?_, hmod, ?_, ?_⟩
    · rw [List.foldl_nil, hs.slots, List.getElem?_range harc]
    · rw [List.foldl_nil, hs.chunks, List.getElem?_range harc]
    · rw [List.foldl_nil, hs.lens _ harc, Progress.chunkLen, hpublished]
      omega
    · -- the place is the first beyond the log
      rw [List.foldl_nil, hs.entries _ harc _ hmod, hpos, List.getElem?_eq_none_iff, hs.written]
  | cons a before ih =>
    intro s p hs hg h
    obtain ⟨hallows, hfits, hrest⟩ := h
    exact ih (on_chunks_shape hs hg hallows hfits) (hg.apply hallows) hrest

end ShardAccess

/-! ## Calls one after the other -/

/-- Registrations that start on the empty storage and leave `store`, with `n` entries, publish
each entry once, in order, where there is room and the assertions hold. -/
structure Published {T : Type} (trace : List (ShardAccess T)) (store : Chunks T) (n : ℕ) : Prop where
  result : store = trace.foldl (fun s a => a.on_chunks s) Chunks.new
  accepts : ∀ before arc offset entry after,
    trace = before ++ .write_entry arc offset entry :: after →
      (before.foldl (fun s a => a.on_chunks s) Chunks.new).Accepts arc offset
  once : trace.filterMap ShardAccess.target = (List.range n).map ShardAccess.place

namespace ShardKind

variable {σ T C K : Type} [ShardKind σ T C K]

/-- The accesses of a call: none if its key is known. -/
def call_accesses (s : σ) (call : C) : List (ShardAccess T) :=
  if known s (call_key σ call) then [] else accesses s call

/-- The accesses of calls made one after the other. -/
def trace : List C → σ → List (ShardAccess T)
  | [], _ => []
  | call :: calls, s => call_accesses s call
      ++ trace calls ((call_accesses s call).foldl (fun s a => apply a s) s)

/-- What no access changes, a call does not change. -/
theorem foldl_invariant {α : Type} {f : σ → α} (hf : ∀ (a : ShardAccess T) (s : σ), f (apply a s) = f s)
    (todo : List (ShardAccess T)) (s : σ) : f (todo.foldl (fun s a => apply a s) s) = f s := by
  induction todo generalizing s with
  | nil => rfl
  | cons a todo ih => rw [List.foldl_cons, ih, hf]

/-- Accesses act on the storage by themselves. -/
theorem store_foldl (todo : List (ShardAccess T)) (s : σ) :
    store (todo.foldl (fun s a => apply a s) s)
      = todo.foldl (fun s a => a.on_chunks s) (store s) := by
  induction todo generalizing s with
  | nil => rfl
  | cons a todo ih => rw [List.foldl_cons, ih, List.foldl_cons, store_apply]

section Calls

variable [DecidableEq K] {s : σ} {log : List T}
  (hshape : ∀ {s : σ} {log : List T}, holds s log →
    (store s).Shape log (settled CHUNK_SIZE log.length))
include hshape

/-- One call: it keeps the invariant, and writes the entry it adds, if any, to a free place. -/
theorem call_spec (h : holds s log) (call : C) :
    holds ((call_accesses s call).foldl (fun s a => apply a s) s)
        (enroll (key σ) log (call_entry s call))
      ∧ (call_accesses s call).filterMap ShardAccess.target
        = (List.range' log.length ((enroll (key σ) log (call_entry s call)).length - log.length)).map
            ShardAccess.place
      ∧ ∀ before arc offset entry after,
          call_accesses s call = before ++ .write_entry arc offset entry :: after →
            (before.foldl (fun s a => a.on_chunks s) (store s)).Accepts arc offset := by
  have hknown := holds_known h (call_key σ call)
  have hentry := key_call_entry s call
  by_cases hk : known s (call_key σ call) = true
  · -- a known key writes nothing
    rw [call_accesses, if_pos hk, enroll_of_mem _ (by rw [hentry]; exact hknown.mp hk), Nat.sub_self]
    exact ⟨h, rfl, fun before arc offset entry after heq => absurd heq (by simp)⟩
  · rw [call_accesses, if_neg hk,
      enroll_of_notMem _ (by rw [hentry]; exact fun hmem => hk (hknown.mpr hmem))]
    have hprogram := program call (hshape h)
    -- a new key runs the program of its kind of shard on a settled log
    refine ⟨holds_call call h (Bool.eq_false_iff.mpr hk), hprogram.targets, ?_⟩
    intro before arc offset entry after heq
    rw [heq] at hprogram
    refine hprogram.accepts ?_ (good_settled CHUNK_SIZE_pos _)
    change Chunks.Shape _ (List.take log.length _) _
    rw [List.take_left]
    exact hshape h

/-- Any calls: the entries are those of the first calls with their keys, every position is written
once and in order, and every place is free when it is written. -/
theorem trace_spec (h : holds s log) (calls : List C) :
    ∃ log', holds ((trace calls s).foldl (fun s a => apply a s) s) log'
      ∧ log.length ≤ log'.length
      ∧ log'.map (key σ) = (calls.map (call_key σ)).foldl (enroll id) (log.map (key σ))
      ∧ (trace calls s).filterMap ShardAccess.target
        = (List.range' log.length (log'.length - log.length)).map ShardAccess.place
      ∧ ∀ before arc offset entry after,
          trace calls s = before ++ .write_entry arc offset entry :: after →
            (before.foldl (fun s a => a.on_chunks s) (store s)).Accepts arc offset := by
  induction calls generalizing s log with
  | nil =>
    refine ⟨log, h, le_refl _, rfl, ?_, fun before arc offset entry after heq => ?_⟩
    · rw [Nat.sub_self]
      rfl
    · exact absurd heq (by simp [trace])
  | cons call calls ih =>
    obtain ⟨hcall, htargets, haccepts⟩ := call_spec hshape h call
    obtain ⟨log', h', hle, hkeys, htargets', haccepts'⟩ := ih hcall
    have hfirst := (prefix_enroll (key σ) log (call_entry s call)).length_le
    refine ⟨log', ?_, hfirst.trans hle, ?_, ?_, ?_⟩
    · rw [trace, List.foldl_append]
      exact h'
    · rw [hkeys, map_key_enroll, key_call_entry, List.map_cons, List.foldl_cons]
    · obtain ⟨m, hm⟩ := Nat.exists_eq_add_of_le hfirst
      rw [hm] at htargets htargets' hle
      have hcount : m + (log'.length - (log.length + m)) = log'.length - log.length := by omega
      rw [trace, List.filterMap_append, htargets, htargets', ← List.map_append,
        Nat.add_sub_cancel_left, List.range'_append_1, hcount]
    · intro before arc offset entry after heq
      rw [trace] at heq
      -- the write belongs to this call or to a later one
      rcases List.append_eq_append_iff.mp heq with ⟨rest, rfl, hrest⟩ | ⟨rest, hsplit, hrest⟩
      · rw [List.foldl_append, ← store_foldl]
        exact haccepts' rest arc offset entry after hrest
      · cases rest with
        | nil =>
          rw [List.append_nil] at hsplit
          rw [← hsplit, ← store_foldl]
          exact haccepts' [] arc offset entry after hrest.symm
        | cons a rest =>
          rw [List.cons_append, List.cons.injEq] at hrest
          obtain ⟨rfl, -⟩ := hrest
          exact haccepts before arc offset entry rest hsplit

/-- An operation that amounts to its accesses, on any list of calls. -/
theorem mapM_accesses {α : Type} {op : C → EStateM String σ α}
    (hop : ∀ {s : σ} {log : List T} (call : C), holds s log →
      ∃ a, op call s = .ok a ((call_accesses s call).foldl (fun s a => apply a s) s))
    (h : holds s log) (calls : List C) :
    ∃ results, calls.mapM op s = .ok results ((trace calls s).foldl (fun s a => apply a s) s) := by
  induction calls generalizing s log with
  | nil => exact ⟨[], rfl⟩
  | cons call calls ih =>
    obtain ⟨a, hcall⟩ := hop call h
    obtain ⟨hinv, -, -⟩ := call_spec hshape h call
    obtain ⟨results, hcalls⟩ := ih hinv
    refine ⟨a :: results, ?_⟩
    rw [List.mapM_cons, trace, List.foldl_append]
    simp only [bind, EStateM.bind, hcall, hcalls]
    rfl

/-- Calls on a new shard. -/
theorem published {α : Type} {op : C → EStateM String σ α}
    (hop : ∀ {s : σ} {log : List T} (call : C), holds s log →
      ∃ a, op call s = .ok a ((call_accesses s call).foldl (fun s a => apply a s) s))
    (i : Fin SHARD_COUNT) (calls : List C) :
    ∃ results, ∃ s : σ, ∃ log, calls.mapM op (new i) = .ok results s ∧ holds s log
      ∧ s = (trace calls (new i : σ)).foldl (fun s a => apply a s) (new i)
      ∧ log.map (key σ) = (calls.map (call_key σ)).foldl (enroll id) []
      ∧ Published (trace calls (new i : σ)) (store s) log.length := by
  have hnew : holds (new i : σ) [] := holds_new i
  obtain ⟨results, hcalls⟩ := mapM_accesses hshape hop hnew calls
  obtain ⟨log, hlog, -, hkeys, htargets, haccepts⟩ := trace_spec hshape hnew calls
  refine ⟨results, _, log, hcalls, hlog, rfl, hkeys, ?_, ?_, ?_⟩
  · rw [store_foldl, store_new]
  · rwa [store_new] at haccepts
  · rw [htargets, List.length_nil, Nat.sub_zero, List.range_eq_range']

end Calls

end ShardKind

/-! ## The registrations of the source -/

/-- A registration with a timing shard is its accesses, whether its key is known or not. -/
theorem Shard.enroll_accesses {s : Shard} {log : List MetricMeta} (profile : ProfileMeta)
    (h : s.Inv log) : ∃ metric, enroll profile s
      = .ok metric ((ShardKind.call_accesses s profile).foldl (fun s a => ShardKind.apply a s) s) := by
  cases hfind : s.find profile.key with
  | some item =>
    have hknown : ShardKind.known s (ShardKind.call_key Shard profile) = true :=
      Option.isSome_iff_exists.mpr ⟨item, hfind⟩
    rw [ShardKind.call_accesses, if_pos hknown, enroll_eq h.healthy, hfind]
    exact ⟨_, rfl⟩
  | none =>
    have hknown : ¬ ShardKind.known s (ShardKind.call_key Shard profile) = true := fun hknown => by
      obtain ⟨item, hsome⟩ := Option.isSome_iff_exists.mp hknown
      exact absurd (hfind.symm.trans hsome) nofun
    rw [ShardKind.call_accesses, if_neg hknown]
    exact ⟨_, run_accesses h profile hfind⟩

/-- A registration with a scalar shard is its accesses, whether its key is known or not. -/
theorem ScalarShard.register_accesses {s : ScalarShard} {log : List ScalarMeta}
    (request : Request) (h : s.Inv log) :
    ∃ item, register request.kind request.mode request.name request.resource s
      = .ok item ((ShardKind.call_accesses s request).foldl (fun s a => ShardKind.apply a s) s) := by
  cases hfind : s.find request.key with
  | some item =>
    have hknown : ShardKind.known s (ShardKind.call_key ScalarShard request) = true :=
      Option.isSome_iff_exists.mpr ⟨item, hfind⟩
    rw [ShardKind.call_accesses, if_pos hknown]
    exact ⟨item, register_known h.healthy hfind⟩
  | none =>
    have hknown : ¬ ShardKind.known s (ShardKind.call_key ScalarShard request) = true :=
      fun hknown => by
        obtain ⟨item, hsome⟩ := Option.isSome_iff_exists.mp hknown
        exact absurd (hfind.symm.trans hsome) nofun
    rw [ShardKind.call_accesses, if_neg hknown]
    exact ⟨_, run_accesses h request hfind⟩

/-- No access changes which shard it is. -/
theorem Shard.id_apply (a : ShardAccess MetricMeta) (s : Shard) :
    (ShardKind.apply a s).id = s.id := by
  cases a <;> first | rfl | exact insert_key_id _ _ _

theorem ScalarShard.id_apply (a : ShardAccess ScalarMeta) (s : ScalarShard) :
    (ShardKind.apply a s).id = s.id := by
  cases a <;> first | rfl | exact insert_key_id _ _

/-- The representation of a shard. After any sequence of registrations, of keys new and old and
through any of the insert paths, none of which panics, a timing shard and a scalar shard hold
exactly the entries of the first registrations with their keys, as `ShardRep` says, and have
published each of them once. -/
theorem shards_represent_entries :
    (∀ (i : Fin SHARD_COUNT) (calls : List ProfileMeta), ∃ metrics s log,
      calls.mapM Shard.enroll (Shard.new i) = .ok metrics s
      ∧ log.map (fun m : MetricMeta => m.profile.key)
        = (calls.map ProfileMeta.key).foldl (enroll id) []
      ∧ ShardRep (fun m => m.profile.key) MetricMeta.item (fun block offset => ⟨i, block, offset⟩)
          s.store s.find log
      ∧ Published (ShardKind.trace calls (Shard.new i)) s.store log.length)
    ∧ ∀ (i : Fin SHARD_COUNT) (requests : List ScalarShard.Request), ∃ items s log,
      requests.mapM (fun request => ScalarShard.register request.kind request.mode request.name
        request.resource) (ScalarShard.new i) = .ok items s
      ∧ log.map ScalarMeta.key
        = (requests.map ScalarShard.Request.key).foldl (enroll id) []
      ∧ ShardRep ScalarMeta.key ScalarMeta.item (fun block offset => ⟨i, block, offset⟩)
          s.store s.find log
      ∧ Published (ShardKind.trace requests (ScalarShard.new i)) s.store log.length := by
  constructor
  · intro i calls
    obtain ⟨metrics, s, log, hcalls, hinv, hs, hkeys, hpublished⟩ := ShardKind.published
      (fun {s : Shard} {log : List MetricMeta} (h : s.Inv log) => h.holds.store)
      (fun {s : Shard} {log} profile (h : s.Inv log) => Shard.enroll_accesses profile h) i calls
    have hid : s.id = i := by rw [hs, ShardKind.foldl_invariant Shard.id_apply]; rfl
    exact ⟨metrics, s, log, hcalls, hkeys,
      hinv.holds.rep (fun n => by rw [Shard.item_at, hid]), hpublished⟩
  · intro i requests
    obtain ⟨items, s, log, hcalls, hinv, hs, hkeys, hpublished⟩ := ShardKind.published
      (fun {s : ScalarShard} {log : List ScalarMeta} (h : s.Inv log) => h.holds.store)
      (fun {s : ScalarShard} {log} request (h : s.Inv log) =>
        ScalarShard.register_accesses request h) i requests
    have hid : s.id = i := by rw [hs, ShardKind.foldl_invariant ScalarShard.id_apply]; rfl
    exact ⟨items, s, log, hcalls, hkeys,
      hinv.holds.rep (fun n => by rw [ScalarShard.item_at, hid]), hpublished⟩

end BrzMetrics
