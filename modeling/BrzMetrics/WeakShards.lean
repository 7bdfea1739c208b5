/-
A registry shard in release/acquire memory.

What traversals and registrations share of a shard is its index, the published
lengths and the entries of its chunks, and the slots that handles point to. Only the
published lengths and the index are atomic: `publish` stores the length with
`Release`, `published_len` loads it with `Acquire`, and `ArcSwap` does no less for the
index. Entries are plain memory, and so are lengths and slots until the first store
or update, that is, when their chunk is made.

The newest writes hold what the shard's storage holds (`Newest`), so its writers
keep the shape of the log (`Chunks.Shape`). A reader need not see the newest ones.
But what it knows of a shard is a beginning of the shard's writes, and every
beginning shows a log that is good as far as it has come (`Shown`).
-/
import BrzMetrics.ReleaseAcquire
import BrzMetrics.Traversal

set_option autoImplicit false

namespace BrzMetrics

open ChunkLog ReleaseAcquire

/-! ## Locations -/

/-- The memory of a registry: for every shard the index, the published lengths and the entries of
its chunks, and its blocks of slots. The counters of a block count as one location here, since only
the initialization of a block is not atomic. -/
inductive Loc where
  | index (shard : Fin SHARD_COUNT)
  | published_len (shard : Fin SHARD_COUNT) (arc : ℕ)
  | entry (shard : Fin SHARD_COUNT) (arc offset : ℕ)
  | slots (shard : Fin SHARD_COUNT) (block : ℕ)
deriving DecidableEq

/-- What a location holds. -/
inductive Cell (T : Type) where
  | index (chunks : List ℕ)
  | published_len (len : ℕ)
  | entry (entry : T)
  | slots

/-- The locations that are only written by the holder of a shard's mutex. -/
def Loc.Guarded (i : Fin SHARD_COUNT) : Loc → Prop
  | .index shard => shard = i
  | .published_len shard _ => shard = i
  | .entry shard _ _ => shard = i
  | .slots _ _ => False

instance Loc.decidable_guarded (i : Fin SHARD_COUNT) : DecidablePred (Loc.Guarded i)
  | .index shard => inferInstanceAs (Decidable (shard = i))
  | .published_len shard _ => inferInstanceAs (Decidable (shard = i))
  | .entry shard _ _ => inferInstanceAs (Decidable (shard = i))
  | .slots _ _ => inferInstanceAs (Decidable False)

/-- The stores that an access of a registration makes. -/
def ShardAccess.stores {T : Type} (i : Fin SHARD_COUNT) (store : Chunks T) :
    ShardAccess T → List (Loc × Cell T × Mode)
  | .push_chunk => [(.slots i store.slots.length, .slots, .plain),
      (.published_len i store.heap.length, .published_len 0, .plain)]
  | .write_entry arc offset entry => [(.entry i arc offset, .entry entry, .plain)]
  | .store_published_len arc len => [(.published_len i arc, .published_len len, .ordered)]
  | .count => []
  | .store_index => [(.index i, .index store.chunks, .ordered)]
  | .insert_key _ => []

/-- Stores one after the other, with their places. -/
def store_all {T : Type} (memory : List (Event Loc (Cell T))) (past : Finset ℕ) :
    List (Loc × Cell T × Mode) → List ℕ → Option (List (Event Loc (Cell T)) × Finset ℕ)
  | [], _ => some (memory, past)
  | (loc, value, mode) :: rest, stamp :: stamps =>
    (store memory past loc value mode stamp).bind (fun m => store_all m.1 m.2 rest stamps)
  | _ :: _, [] => none

section Shards

variable {T : Type} {i : Fin SHARD_COUNT}

/-- The writes of a shard. -/
abbrev shard_writes (i : Fin SHARD_COUNT) (memory : List (Event Loc (Cell T))) :
    List (Event Loc (Cell T) × ℕ) :=
  writes (Loc.Guarded i) memory

/-! ## The newest writes -/

/-- The newest writes hold what the storage of the shard holds. -/
structure Newest (i : Fin SHARD_COUNT) (store : Chunks T) (ws : List (Event Loc (Cell T) × ℕ)) :
    Prop where
  index : content ws (.index i) = some (.index store.index)
  lens : ∀ c, content ws (.published_len i c)
    = if c < store.heap.length then some (.published_len (store.deref c).published_len) else none
  entries : ∀ c o, content ws (.entry i c o) = ((store.deref c).get o).map Cell.entry

/-- An access that stores nothing changes nothing there. -/
theorem Newest.silent {store : Chunks T} {ws : List (Event Loc (Cell T) × ℕ)}
    (h : Newest i store ws) {a : ShardAccess T} (ha : a.stores i store = []) :
    Newest i (a.on_chunks store) ws := by
  cases a with
  | push_chunk => simp [ShardAccess.stores] at ha
  | write_entry arc offset entry => simp [ShardAccess.stores] at ha
  | store_published_len arc len => simp [ShardAccess.stores] at ha
  | count => exact ⟨h.index, h.lens, h.entries⟩
  | store_index => simp [ShardAccess.stores] at ha
  | insert_key entry => exact h

section Newest

variable {store : Chunks T} {ws : List (Event Loc (Cell T) × ℕ)} {d : Event Loc (Cell T) × ℕ}

theorem Newest.push_chunk (h : Newest i store ws)
    (hloc : d.1.loc = .published_len i store.heap.length) (hvalue : d.1.value = .published_len 0) :
    Newest i store.push_chunk (ws ++ [d]) where
  index := by
    rw [content_append, hloc, if_neg (by simp), h.index]
    rfl
  lens c := by
    have hlength : store.push_chunk.heap.length = store.heap.length + 1 := by
      simp [Chunks.push_chunk]
    rw [content_append, hloc, hvalue, h.lens, hlength]
    simp only [Loc.published_len.injEq, true_and]
    by_cases hc : store.heap.length = c
    · subst hc
      rw [if_pos rfl, if_pos (Nat.lt_succ_self _), Chunks.deref_push_chunk _ _ le_rfl, if_pos rfl]
      rfl
    · rw [if_neg hc]
      by_cases hlt : c < store.heap.length
      · rw [if_pos hlt, if_pos (by omega), Chunks.deref_push_chunk _ _ hlt.le,
          if_neg (Ne.symm hc)]
      · rw [if_neg hlt, if_neg (by omega)]
  entries c o := by
    rw [content_append, hloc, if_neg (by simp), h.entries]
    -- the new chunk is as empty as one that is not there
    have hnone : ∀ c, store.heap.length ≤ c → store.deref c = MetaChunk.new := fun c hc => by
      rw [Chunks.deref, List.getD_eq_getElem?_getD, List.getElem?_eq_none hc, Option.getD_none]
    by_cases hc : c ≤ store.heap.length
    · rw [Chunks.deref_push_chunk _ _ hc]
      split_ifs with heq
      · rw [hnone c heq.ge]
      · rfl
    · have hbeyond : store.push_chunk.deref c = MetaChunk.new := by
        rw [Chunks.deref, List.getD_eq_getElem?_getD, List.getElem?_eq_none, Option.getD_none]
        simp only [Chunks.push_chunk, List.length_append, List.length_singleton]
        omega
      rw [hnone c (by omega), hbeyond]

theorem Newest.write_entry (h : Newest i store ws) {arc offset : ℕ} {entry : T}
    (harc : arc < store.heap.length) (ho : offset < CHUNK_SIZE)
    (hloc : d.1.loc = .entry i arc offset) (hvalue : d.1.value = .entry entry) :
    Newest i (store.write_entry arc offset entry) (ws ++ [d]) where
  index := by
    rw [content_append, hloc, if_neg (by simp), h.index]
    rfl
  lens c := by
    rw [content_append, hloc, if_neg (by simp), h.lens, Chunks.write_entry_heap_length,
      Chunks.write_entry, Chunks.deref_set _ _ _ harc]
    split_ifs with hc heq
    · rw [MetaChunk.write_published_len, heq]
    · rfl
    · rfl
  entries c o := by
    rw [content_append, hloc, hvalue, h.entries, Chunks.write_entry, Chunks.deref_set _ _ _ harc]
    simp only [Loc.entry.injEq, true_and]
    by_cases hc : c = arc
    · subst hc
      rw [if_pos rfl, MetaChunk.write_get _ ho]
      by_cases heq : o = offset
      · rw [if_pos ⟨rfl, heq.symm⟩, if_pos heq]
        rfl
      · rw [if_neg (fun h' => heq h'.2.symm), if_neg heq]
    · rw [if_neg (fun h' => hc h'.1.symm), if_neg hc]

theorem Newest.store_published_len (h : Newest i store ws) {arc len : ℕ}
    (harc : arc < store.heap.length) (hloc : d.1.loc = .published_len i arc)
    (hvalue : d.1.value = .published_len len) :
    Newest i (store.store_published_len arc len) (ws ++ [d]) where
  index := by
    rw [content_append, hloc, if_neg (by simp), h.index]
    rfl
  lens c := by
    rw [content_append, hloc, hvalue, h.lens, Chunks.store_published_len_heap_length,
      Chunks.store_published_len, Chunks.deref_set _ _ _ harc]
    simp only [Loc.published_len.injEq, true_and]
    by_cases hc : c = arc
    · subst hc
      rw [if_pos rfl, if_pos harc, if_pos rfl]
      rfl
    · rw [if_neg (Ne.symm hc), if_neg hc]
  entries c o := by
    rw [content_append, hloc, if_neg (by simp), h.entries, Chunks.store_published_len,
      Chunks.deref_set _ _ _ harc]
    split_ifs with hc
    · rw [MetaChunk.store_published_len_get, hc]
    · rfl

theorem Newest.store_index (h : Newest i store ws) (hloc : d.1.loc = .index i)
    (hvalue : d.1.value = .index store.chunks) : Newest i store.store_index (ws ++ [d]) where
  index := by
    rw [content_append, if_pos hloc, hvalue]
    rfl
  lens c := by
    rw [content_append, hloc, if_neg (by simp), h.lens]
    rfl
  entries c o := by
    rw [content_append, hloc, if_neg (by simp), h.entries]
    rfl

end Newest

/-! ## What a beginning of the writes shows -/

/-- How far a write brings the log. -/
def Cell.step : Cell T → Step
  | .index _ => .index
  | .published_len len => if len = 0 then .grow else .publish
  | .entry _ => .write
  | .slots => .other

/-- How far the log has come after some writes. The writes do not tell how many entries the writer
has counted. -/
def progress_of (ws : List (Event Loc (Cell T) × ℕ)) : Progress :=
  ws.foldl (fun p d => p.apply d.1.value.step) (settled CHUNK_SIZE 0)

theorem progress_of_append (ws : List (Event Loc (Cell T) × ℕ)) (d : Event Loc (Cell T) × ℕ) :
    progress_of (ws ++ [d]) = (progress_of ws).apply d.1.value.step := by
  rw [progress_of, List.foldl_append]
  rfl

/-- The same numbers, but for the counted entries. -/
structure Agrees (p q : Progress) : Prop where
  chunks : p.chunks = q.chunks
  written : p.written = q.written
  published : p.published = q.published
  indexed : p.indexed = q.indexed

theorem Agrees.refl (p : Progress) : Agrees p p := ⟨rfl, rfl, rfl, rfl⟩

theorem Agrees.good {p q : Progress} (h : Agrees p q) (hq : Good CHUNK_SIZE q) :
    Good CHUNK_SIZE p := by
  obtain ⟨hchunks, hwritten, hpublished, hindexed⟩ := h
  obtain ⟨h1, h2, h3, h4⟩ := hq
  constructor <;> simp only [hchunks, hwritten, hpublished, hindexed] <;> assumption

theorem Agrees.le {p q : Progress} (h : Agrees p q) : p.Le q :=
  ⟨h.published.le, h.indexed.le, h.written.le⟩

theorem Agrees.symm {p q : Progress} (h : Agrees p q) : Agrees q p :=
  ⟨h.chunks.symm, h.written.symm, h.published.symm, h.indexed.symm⟩

theorem Agrees.trans {p q r : Progress} (h : Agrees p q) (h' : Agrees q r) : Agrees p r :=
  ⟨h.chunks.trans h'.chunks, h.written.trans h'.written, h.published.trans h'.published,
    h.indexed.trans h'.indexed⟩

theorem Agrees.apply {p q : Progress} (h : Agrees p q) (s : Step) :
    Agrees (p.apply s) (q.apply s) := by
  obtain ⟨hchunks, hwritten, hpublished, hindexed⟩ := h
  cases s <;> constructor <;> simp [Progress.apply, *]

/-- Some writes show a good log of entries of `order`. -/
structure Shown (i : Fin SHARD_COUNT) (order : List T) (ws : List (Event Loc (Cell T) × ℕ)) :
    Prop where
  good : Good CHUNK_SIZE (progress_of ws)
  index : content ws (.index i) = some (.index (List.range (progress_of ws).indexed))
  lens : ∀ c < (progress_of ws).chunks, content ws (.published_len i c)
    = some (.published_len ((progress_of ws).chunkLen CHUNK_SIZE c))
  entries : ∀ n < (progress_of ws).written, ∃ entry, order[n]? = some entry
    ∧ content ws (.entry i (n / CHUNK_SIZE) (n % CHUNK_SIZE)) = some (.entry entry)

theorem Shown.mono {order order' : List T} {ws : List (Event Loc (Cell T) × ℕ)}
    (h : Shown i order ws) (horder : order <+: order') : Shown i order' ws where
  good := h.good
  index := h.index
  lens := h.lens
  entries n hn := by
    obtain ⟨entry, hentry, hcontent⟩ := h.entries n hn
    obtain ⟨rest, rfl⟩ := horder
    have hlt : n < order.length := (List.getElem?_eq_some_iff.mp hentry).1
    exact ⟨entry, by rw [List.getElem?_append_left hlt, hentry], hcontent⟩

/-- All writes show what is in the storage. -/
theorem Newest.shown {store : Chunks T} {order : List T} {p : Progress}
    {ws : List (Event Loc (Cell T) × ℕ)} (h : Newest i store ws)
    (hshape : store.Shape (order.take p.written) p) (hg : Good CHUNK_SIZE p)
    (hp : Agrees (progress_of ws) p) : Shown i order ws where
  good := hp.good hg
  index := by rw [h.index, hshape.index, hp.indexed]
  lens c hc := by
    have hc : c < p.chunks := hp.chunks ▸ hc
    rw [h.lens, if_pos (by rw [hshape.heap]; exact hc), hshape.lens c hc, Progress.chunkLen,
      Progress.chunkLen, hp.published]
  entries n hn := by
    have hn : n < p.written := hp.written ▸ hn
    have horder : n < order.length := by
      have hlength := hshape.written
      rw [List.length_take] at hlength
      omega
    have hchunk : n / CHUNK_SIZE < p.chunks :=
      Nat.div_lt_of_lt_mul (hn.trans_le hg.written_le)
    refine ⟨order[n], List.getElem?_eq_getElem horder, ?_⟩
    rw [h.entries, hshape.entries _ hchunk _ (Nat.mod_lt _ CHUNK_SIZE_pos), Nat.div_add_mod,
      List.getElem?_take_of_lt hn, List.getElem?_eq_getElem horder]
    rfl

/-! ## The memory of a shard -/

/-- The initialization of a block of slots. -/
def Initializes (i : Fin SHARD_COUNT) (block : ℕ) (e : Event Loc (Cell T)) : Prop :=
  e.loc = .slots i block ∧ e.is_store = true ∧ e.mode = .plain

/-- A thread knows that a block has been initialized, and of no other access to it that is not
atomic. -/
structure KnowsBlock (i : Fin SHARD_COUNT) (memory : List (Event Loc (Cell T))) (past : Finset ℕ)
    (block : ℕ) : Prop where
  initialized : ∃ j ∈ past, ∃ e, memory[j]? = some e ∧ Initializes i block e
  only : ∀ j e, memory[j]? = some e → e.loc = .slots i block → e.mode = .plain → j ∈ past

/-- What holds of a shard's part of the memory. -/
structure ShardMemory (i : Fin SHARD_COUNT) (memory : List (Event Loc (Cell T))) (order : List T)
    (store : Chunks T) (p : Progress) : Prop where
  serial : Serial (shard_writes i memory)
  newest : Newest i store (shard_writes i memory)
  current : Agrees (progress_of (shard_writes i memory)) p
  shown : ∀ ws, ws ≠ [] → ws <+: shard_writes i memory → Shown i order ws
  grows : ∀ ws ws', ws <+: ws' → ws' <+: shard_writes i memory →
    (progress_of ws).Le (progress_of ws')
  plain : ∀ d ∈ shard_writes i memory, ∀ arc offset, d.1.loc = .entry i arc offset →
    d.1.mode = .plain
  /-- Who knows of a chunk knows of its block of slots. -/
  blocks : ∀ d ∈ shard_writes i memory, ∀ arc, d.1.loc = .published_len i arc →
    KnowsBlock i memory d.1.past arc
  slots : ∀ e ∈ memory, ∀ block, e.loc = .slots i block → block < store.slots.length

/-- What holds of the whole memory. -/
structure Safe (memory : List (Event Loc (Cell T))) : Prop where
  race_free : RaceFree memory
  sourced : Sourced memory
  /-- The loads that are not atomic are those of entries. -/
  plain_loads : ∀ e ∈ memory, e.is_store = false → e.mode = .plain →
    ∃ i arc offset, e.loc = .entry i arc offset

section Memory

variable {memory memory' : List (Event Loc (Cell T))} {past past' : Finset ℕ} {order : List T}
  {store store' : Chunks T} {p p' : Progress} {loc : Loc} {value : Cell T} {mode : Mode} {stamp : ℕ}
  {ws : List (Event Loc (Cell T) × ℕ)}

theorem KnowsBlock.mono {block : ℕ} (h : KnowsBlock i memory past block) (hpast : past ⊆ past') :
    KnowsBlock i memory past' block where
  initialized := by
    obtain ⟨j, hj, hinit⟩ := h.initialized
    exact ⟨j, hpast hj, hinit⟩
  only j e he hloc hmode := hpast (h.only j e he hloc hmode)

theorem KnowsBlock.append {block : ℕ} (h : KnowsBlock i memory past block)
    {e : Event Loc (Cell T)} (he : e.loc = .slots i block → e.mode ≠ .plain) :
    KnowsBlock i (memory ++ [e]) past block where
  initialized := by
    obtain ⟨j, hj, f, hf, hinit⟩ := h.initialized
    exact ⟨j, hj, f, by rw [List.getElem?_append_left (List.getElem?_eq_some_iff.mp hf).1, hf],
      hinit⟩
  only j f hf hloc hmode := by
    by_cases hlt : j < memory.length
    · exact h.only j f (by rwa [List.getElem?_append_left hlt] at hf) hloc hmode
    · rw [List.getElem?_append_right (not_lt.mp hlt)] at hf
      obtain rfl := List.mem_singleton.mp (List.mem_of_getElem? hf)
      exact absurd hmode (he hloc)

theorem ShardMemory.mono {order' : List T} (h : ShardMemory i memory order store p)
    (horder : order <+: order') : ShardMemory i memory order' store p :=
  { h with shown := fun ws hne hws => (h.shown ws hne hws).mono horder }

/-- Accesses that are no writes of the shard leave it alone, if they do not initialize a block of a
chunk that is there. -/
theorem ShardMemory.frame (h : ShardMemory i memory order store p) {e : Event Loc (Cell T)}
    (he : e.is_store = true → ¬ e.loc.Guarded i)
    (hslots : ∀ block < store.slots.length, e.loc = .slots i block → e.mode ≠ .plain)
    {slots : List ℕ} (hlength : store.slots.length ≤ slots.length)
    (hbound : ∀ block, e.loc = .slots i block → block < slots.length) :
    shard_writes i (memory ++ [e]) = shard_writes i memory
      ∧ ShardMemory i (memory ++ [e]) order { store with slots := slots } p := by
  have hwrites : shard_writes i (memory ++ [e]) = shard_writes i memory := by
    rw [shard_writes, writes_append, if_neg (fun h' => he h'.1 h'.2), List.append_nil]
  refine ⟨hwrites, ?_⟩
  constructor
  case serial => rw [hwrites]; exact h.serial
  case newest => rw [hwrites]; exact ⟨h.newest.index, h.newest.lens, h.newest.entries⟩
  case current => rw [hwrites]; exact h.current
  case shown => rw [hwrites]; exact h.shown
  case grows => rw [hwrites]; exact h.grows
  case plain => rw [hwrites]; exact h.plain
  case blocks =>
    rw [hwrites]
    intro d hd arc hloc
    have hblock := h.blocks d hd arc hloc
    obtain ⟨j, -, f, hf, hinit⟩ := hblock.initialized
    exact hblock.append (hslots arc (h.slots f (List.mem_of_getElem? hf) arc hinit.1))
  case slots =>
    intro f hf block hloc
    rcases List.mem_append.mp hf with hf | hf
    · exact (h.slots f hf block hloc).trans_le hlength
    · obtain rfl := List.mem_singleton.mp hf
      exact hbound block hloc

/-- Who knows of a chunk knows of its block of slots. -/
theorem ShardMemory.knows_block (h : ShardMemory i memory order store p)
    (hws : ws <+: shard_writes i memory) (hknows : Knows past ws) {arc : ℕ}
    (hchunk : content ws (.published_len i arc) ≠ none) : KnowsBlock i memory past arc := by
  obtain ⟨d, hd, hloc⟩ := exists_of_content hchunk
  exact (h.blocks d (hws.subset hd) arc hloc).mono
    ((Finset.subset_insert _ _).trans (hknows d hd))

/-- A store that makes no race. -/
theorem Safe.write (h : Safe memory)
    (hstore : ReleaseAcquire.store memory past loc value mode stamp = some (memory', past'))
    (hordered : ∀ j d, memory[j]? = some d → d.loc = loc → d.mode = .plain ∨ mode = .plain →
      j ∈ past) : Safe memory' := by
  obtain ⟨-, rfl, -⟩ := store_spec hstore
  refine ⟨h.race_free.append (fun j d hd hconflict => hordered j d hd hconflict.1 hconflict.2.2),
    h.sourced.append (fun hload => Bool.noConfusion hload), fun e he hload hplain => ?_⟩
  rcases List.mem_append.mp he with he | he
  · exact h.plain_loads e he hload hplain
  · obtain rfl := List.mem_singleton.mp he
    exact Bool.noConfusion hload

/-- A new block of slots. -/
theorem ShardMemory.init_block (h : ShardMemory i memory order store p) (hsafe : Safe memory)
    (hstore : ReleaseAcquire.store memory past (.slots i store.slots.length) .slots .plain stamp
      = some (memory', past')) :
    shard_writes i memory' = shard_writes i memory
      ∧ ShardMemory i memory' order { store with slots := store.slots ++ [store.slots.length] } p
      ∧ KnowsBlock i memory' past' store.slots.length ∧ Safe memory' := by
  -- so far nothing has touched the block
  have hfresh : ∀ e ∈ memory, e.loc ≠ .slots i store.slots.length :=
    fun e he hloc => lt_irrefl _ (h.slots e he _ hloc)
  have hsafe' := hsafe.write hstore
    (fun j d hd hloc _ => absurd hloc (hfresh d (List.mem_of_getElem? hd)))
  obtain ⟨-, rfl, rfl⟩ := store_spec hstore
  obtain ⟨hwrites, hframe⟩ := h.frame
    (e := ⟨.slots i store.slots.length, .slots, stamp, true, .plain, past⟩) (fun _ => id)
    (fun block hlt hloc => absurd hlt (by rw [(Loc.slots.inj hloc).2]; exact lt_irrefl _))
    (show store.slots.length ≤ (store.slots ++ [store.slots.length]).length by simp)
    (fun block hloc => by rw [← (Loc.slots.inj hloc).2]; simp)
  refine ⟨hwrites, hframe, ⟨⟨memory.length, Finset.mem_insert_self _ _, _,
    List.getElem?_concat_length, rfl, rfl, rfl⟩, fun j e he hloc _ => ?_⟩, hsafe'⟩
  by_cases hlt : j < memory.length
  · rw [List.getElem?_append_left hlt] at he
    exact absurd hloc (hfresh e (List.mem_of_getElem? he))
  · have hj := (List.getElem?_eq_some_iff.mp he).1
    rw [List.length_append, List.length_singleton] at hj
    rw [show j = memory.length by omega]
    exact Finset.mem_insert_self _ _

/-- A store of a writer that knows of all earlier ones conflicts with nothing else. -/
theorem Safe.conflicts_known (h : Safe memory) (hknows : Knows past (shard_writes i memory))
    (hguarded : loc.Guarded i)
    (hmode : content (shard_writes i memory) loc ≠ none → mode = .ordered)
    (hplain : ∀ arc offset, loc = .entry i arc offset → mode = .plain) (j : ℕ)
    (d : Event Loc (Cell T)) (hd : memory[j]? = some d) (hloc : d.loc = loc)
    (hconflict : d.mode = .plain ∨ mode = .plain) : j ∈ past := by
  subst hloc
  have hmem := List.mem_of_getElem? hd
  cases hstore : d.is_store with
  | true => exact hknows (d, j) (mem_writes.mpr ⟨hd, hstore, hguarded⟩) (Finset.mem_insert_self _ _)
  | false =>
    -- what has been loaded has been written
    obtain ⟨f, hf, hfstore, hfloc, -⟩ := h.sourced d hmem
    obtain ⟨k, hk⟩ := List.getElem?_of_mem hf
    have hwrite : (f, k) ∈ shard_writes i memory :=
      mem_writes.mpr ⟨hk, hfstore, by rw [hfloc]; exact hguarded⟩
    have hmode' := hmode (content_ne_none hwrite hfloc)
    rcases hconflict with hconflict | hconflict
    · -- entries are loaded without atomics, but they are only written once
      obtain ⟨j, arc, offset, hentry⟩ := h.plain_loads d hmem hstore hconflict
      obtain rfl : j = i := by
        rw [hentry] at hguarded
        exact hguarded
      exact Mode.noConfusion ((hplain arc offset hentry).symm.trans hmode')
    · exact Mode.noConfusion (hconflict.symm.trans hmode')

/-- A store of a writer that knows of all earlier ones. -/
theorem ShardMemory.write (h : ShardMemory i memory order store p) (hsafe : Safe memory)
    (hknows : Knows past (shard_writes i memory))
    (hstore : ReleaseAcquire.store memory past loc value mode stamp = some (memory', past'))
    (hguarded : loc.Guarded i)
    (hmode : content (shard_writes i memory) loc ≠ none → mode = .ordered)
    (hnewest : ∀ d : Event Loc (Cell T) × ℕ, d.1.loc = loc → d.1.value = value →
      Newest i store' (shard_writes i memory ++ [d]))
    (hshape : store'.Shape (order.take p'.written) p') (hg : Good CHUNK_SIZE p')
    (hp : Agrees (p.apply value.step) p') (hle : p.Le p')
    (hplain : ∀ arc offset, loc = .entry i arc offset → mode = .plain)
    (hblocks : ∀ arc, loc = .published_len i arc → KnowsBlock i memory past arc)
    (hslots : store.slots.length ≤ store'.slots.length) :
    ShardMemory i memory' order store' p' ∧ Knows past' (shard_writes i memory')
      ∧ Safe memory' := by
  have hsafe' := hsafe.write hstore (hsafe.conflicts_known hknows hguarded hmode hplain)
  obtain ⟨hwrites, hserial, hknows'⟩ := h.serial.store hknows hguarded hstore
    (fun ⟨d, hd, hloc⟩ => hmode (content_ne_none hd hloc))
  obtain ⟨-, rfl, rfl⟩ := store_spec hstore
  have hcurrent : Agrees (progress_of (shard_writes i (memory ++ [⟨loc, value, stamp, true, mode,
      past⟩]))) p' := by
    rw [shard_writes, hwrites, progress_of_append]
    exact (h.current.apply _).trans hp
  have hall := hnewest (⟨loc, value, stamp, true, mode, past⟩, memory.length) rfl rfl
  rw [← hwrites] at hall
  -- a beginning of the writes is an old one, or all there is
  have hcases : ∀ ws, ws <+: shard_writes i (memory ++ [⟨loc, value, stamp, true, mode, past⟩]) →
      ws <+: shard_writes i memory
        ∨ ws = shard_writes i (memory ++ [⟨loc, value, stamp, true, mode, past⟩]) := by
    intro ws hws
    rw [shard_writes, hwrites] at hws
    rcases List.prefix_concat_iff.mp hws with heq | hws
    · exact .inr (heq.trans hwrites.symm)
    · exact .inl hws
  have hother : ∀ block, loc ≠ .slots i block := by
    rintro block rfl
    exact hguarded
  refine ⟨⟨hserial, hall, hcurrent, ?_, ?_, ?_, ?_, ?_⟩, hknows', hsafe'⟩
  · intro ws hne hws
    rcases hcases ws hws with hws | rfl
    · exact h.shown ws hne hws
    · exact hall.shown hshape hg hcurrent
  · intro ws ws' hws hws'
    rcases hcases ws' hws' with hws' | rfl
    · exact h.grows ws ws' hws hws'
    · rcases hcases ws hws with hws | rfl
      · exact (((h.grows ws _ hws List.prefix_rfl).trans h.current.le).trans hle).trans
          hcurrent.symm.le
      · exact Progress.Le.refl _
  · intro d hd arc offset hloc
    rw [shard_writes, hwrites] at hd
    rcases List.mem_append.mp hd with hd | hd
    · exact h.plain d hd arc offset hloc
    · obtain rfl := List.mem_singleton.mp hd
      exact hplain arc offset hloc
  · intro d hd arc hloc
    rw [shard_writes, hwrites] at hd
    rcases List.mem_append.mp hd with hd | hd
    · exact (h.blocks d hd arc hloc).append (fun hslot => absurd hslot (hother arc))
    · obtain rfl := List.mem_singleton.mp hd
      exact (hblocks arc hloc).append (fun hslot => absurd hslot (hother arc))
  · intro e he block hloc
    rcases List.mem_append.mp he with he | he
    · exact (h.slots e he block hloc).trans_le hslots
    · obtain rfl := List.mem_singleton.mp he
      exact absurd hloc (hother block)

/-- An access that stores nothing. -/
theorem ShardMemory.silent (h : ShardMemory i memory order store p) {a : ShardAccess T}
    (ha : a.stores i store = []) (hp : Agrees p (p.apply a.step))
    (hslots : store.slots.length ≤ (a.on_chunks store).slots.length) :
    ShardMemory i memory order (a.on_chunks store) (p.apply a.step) :=
  { h with
    newest := h.newest.silent ha
    current := h.current.trans hp
    slots := fun e he block hloc => (h.slots e he block hloc).trans_le hslots }

/-- An access of the holder of the mutex, who knows of all writes of the shard. -/
theorem ShardMemory.access (h : ShardMemory i memory order store p) (hsafe : Safe memory)
    (hknows : Knows past (shard_writes i memory))
    (hshape : store.Shape (order.take p.written) p) (hg : Good CHUNK_SIZE p) {a : ShardAccess T}
    (hallows : p.Allows CHUNK_SIZE a.step) (hfits : a.Fits order p) {stamps : List ℕ}
    (hstores : store_all memory past (a.stores i store) stamps = some (memory', past')) :
    ShardMemory i memory' order (a.on_chunks store) (p.apply a.step)
      ∧ Knows past' (shard_writes i memory') ∧ Safe memory' := by
  have hshape' := ShardAccess.on_chunks_shape hshape hg hallows hfits
  have hgood' := hg.apply hallows
  have hle := hg.le_apply a.step
  have hheap : store.slots.length = store.heap.length := by
    rw [hshape.slots, hshape.heap, List.length_range]
  cases a with
  | push_chunk =>
    rcases stamps with _ | ⟨stamp, _ | ⟨stamp', stamps⟩⟩ <;>
      simp only [ShardAccess.stores, store_all, Option.bind_eq_some_iff, reduceCtorEq, and_false,
        exists_false] at hstores
    obtain ⟨⟨memory₁, past₁⟩, hinit, ⟨memory₂, past₂⟩, hstore, heq⟩ := hstores
    obtain ⟨rfl, rfl⟩ := Prod.mk.inj (Option.some.inj heq)
    obtain ⟨hwrites, hmemory, hblock, hsafe₁⟩ := h.init_block hsafe hinit
    have hpast : past ⊆ past₁ := by
      rw [(store_spec hinit).2.2]
      exact Finset.subset_insert _ _
    refine hmemory.write hsafe₁ (hwrites ▸ hknows.mono hpast) hstore rfl ?_ ?_ hshape' hgood'
      (Agrees.refl _) hle ?_ ?_ (by simp [ShardAccess.on_chunks, Chunks.push_chunk])
    · -- the length of the new chunk is stored for the first time
      intro hcontent
      rw [hwrites, h.newest.lens, if_neg (lt_irrefl _)] at hcontent
      exact absurd rfl hcontent
    · intro d hloc hvalue
      rw [hwrites]
      exact h.newest.push_chunk hloc hvalue
    · intro arc offset hloc
      exact Loc.noConfusion hloc
    · intro arc hloc
      rw [← (Loc.published_len.inj hloc).2, ← hheap]
      exact hblock
  | write_entry arc offset entry =>
    obtain ⟨rfl, rfl, hentry⟩ := hfits
    rcases stamps with _ | ⟨stamp, stamps⟩ <;>
      simp only [ShardAccess.stores, store_all, Option.bind_eq_some_iff, reduceCtorEq] at hstores
    obtain ⟨⟨memory₁, past₁⟩, hstore, heq⟩ := hstores
    obtain ⟨rfl, rfl⟩ := Prod.mk.inj (Option.some.inj heq)
    have hchunk : p.written / CHUNK_SIZE < p.chunks := Nat.div_lt_of_lt_mul hallows.1
    refine h.write hsafe hknows hstore rfl ?_ ?_ hshape' hgood' (Agrees.refl _) hle
      (fun _ _ _ => rfl)
      ?_ le_rfl
    · -- nobody has written the entry before
      intro hcontent
      rw [h.newest.entries, hshape.entries _ hchunk _ (Nat.mod_lt _ CHUNK_SIZE_pos),
        Nat.div_add_mod, List.getElem?_eq_none hshape.written.le] at hcontent
      exact absurd rfl hcontent
    · intro d hloc hvalue
      exact h.newest.write_entry (hshape.heap ▸ hchunk) (Nat.mod_lt _ CHUNK_SIZE_pos) hloc hvalue
    · intro arc hloc
      exact Loc.noConfusion hloc
  | store_published_len arc len =>
    obtain ⟨rfl, rfl⟩ := hfits
    rcases stamps with _ | ⟨stamp, stamps⟩ <;>
      simp only [ShardAccess.stores, store_all, Option.bind_eq_some_iff, reduceCtorEq] at hstores
    obtain ⟨⟨memory₁, past₁⟩, hstore, heq⟩ := hstores
    obtain ⟨rfl, rfl⟩ := Prod.mk.inj (Option.some.inj heq)
    have hone : p.written = p.published + 1 := hallows
    have hwritten := hg.written_le
    have hchunk : p.published / CHUNK_SIZE < store.heap.length := by
      rw [hshape.heap]
      exact Nat.div_lt_of_lt_mul (by omega)
    refine h.write hsafe hknows hstore rfl (fun _ => rfl) ?_ hshape' hgood' ?_ hle ?_ ?_ le_rfl
    · intro d hloc hvalue
      exact h.newest.store_published_len hchunk hloc hvalue
    · exact Agrees.refl _
    · intro arc offset hloc
      exact Loc.noConfusion hloc
    · intro arc hloc
      rw [← (Loc.published_len.inj hloc).2]
      refine h.knows_block List.prefix_rfl hknows ?_
      rw [h.newest.lens, if_pos hchunk]
      exact Option.some_ne_none _
  | count =>
    obtain ⟨rfl, rfl⟩ := Prod.mk.inj (Option.some.inj hstores)
    exact ⟨h.silent rfl ⟨rfl, rfl, rfl, rfl⟩ le_rfl, hknows, hsafe⟩
  | store_index =>
    rcases stamps with _ | ⟨stamp, stamps⟩ <;>
      simp only [ShardAccess.stores, store_all, Option.bind_eq_some_iff, reduceCtorEq] at hstores
    obtain ⟨⟨memory₁, past₁⟩, hstore, heq⟩ := hstores
    obtain ⟨rfl, rfl⟩ := Prod.mk.inj (Option.some.inj heq)
    refine h.write hsafe hknows hstore rfl (fun _ => rfl) ?_ hshape' hgood' (Agrees.refl _) hle
      ?_ ?_
      le_rfl
    · intro d hloc hvalue
      exact h.newest.store_index hloc hvalue
    · intro arc offset hloc
      exact Loc.noConfusion hloc
    · intro arc hloc
      exact Loc.noConfusion hloc
  | insert_key entry =>
    obtain ⟨rfl, rfl⟩ := Prod.mk.inj (Option.some.inj hstores)
    exact ⟨h.silent rfl (Agrees.refl _) le_rfl, hknows, hsafe⟩

end Memory

end Shards

end BrzMetrics
