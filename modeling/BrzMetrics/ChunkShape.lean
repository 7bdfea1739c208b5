/-
The chunked storage of a shard holds its log.

`Chunks.Shape s log p` says that the storage `s` contains the entries `log`, as
far as the numbers `p` of `ChunkLog.Progress` say: entry `i` lies in chunk
`i / CHUNK_SIZE` at offset `i % CHUNK_SIZE`, the published lengths cover exactly
`p.published` entries, and the index lists the first `p.indexed` chunks. Each
access a writer makes moves `p` by one step of the protocol; between two
registrations `p` is `settled`.

From that follow the two facts everything else uses: an append on a settled log
succeeds and settles again one entry longer (`Shape.append`), and a traversal of
a settled log visits exactly its entries, in order (`Shape.for_each`).
-/
import BrzMetrics.Chunks

set_option autoImplicit false

namespace BrzMetrics.Chunks

open ChunkLog

variable {T : Type}

/-- The storage holds `log`, as far as `p` says. -/
structure Shape (s : Chunks T) (log : List T) (p : Progress) : Prop where
  slots : s.slots = List.range p.chunks
  chunks : s.chunks = List.range p.chunks
  heap : s.heap.length = p.chunks
  lens : ∀ c < p.chunks, (s.deref c).published_len = p.chunkLen CHUNK_SIZE c
  written : log.length = p.written
  entries : ∀ c < p.chunks, ∀ o < CHUNK_SIZE, (s.deref c).get o = log[CHUNK_SIZE * c + o]?
  len : s.len = p.counted
  index : s.index = List.range p.indexed

/-- A new shard holds the empty log. -/
theorem shape_new : Shape (Chunks.new : Chunks T) [] (settled CHUNK_SIZE 0) := by
  have h0 : chunkCount CHUNK_SIZE 0 = 0 := chunkCount_zero CHUNK_SIZE_pos
  refine ⟨?_, ?_, ?_, ?_, ?_, ?_, ?_, ?_⟩ <;> simp [Chunks.new, settled, h0]

/-! ## One access -/

section Access

variable {s : Chunks T} {log : List T} {p : Progress}

/-- A pushed chunk is empty, and so is the part of the log it will hold. -/
theorem Shape.push_chunk (h : Shape s log p) (hg : Good CHUNK_SIZE p)
    (ha : p.Allows CHUNK_SIZE .grow) : Shape s.push_chunk log (p.apply .grow) where
  slots := by
    simp [Chunks.push_chunk, Progress.apply, h.slots, List.range_succ]
  chunks := by
    simp [Chunks.push_chunk, Progress.apply, h.chunks, h.heap, List.range_succ]
  heap := by simp [Chunks.push_chunk, Progress.apply, h.heap]
  lens := by
    intro c hc
    have hc' : c < p.chunks + 1 := hc
    rw [deref_push_chunk _ _ (by rw [h.heap]; omega), h.heap]
    split_ifs with heq
    · subst heq
      -- the new chunk: nothing beyond the chunks is published
      have hp := hg.published_le
      have hw : p.written = CHUNK_SIZE * p.chunks := ha
      simp only [MetaChunk.new_published_len, Progress.apply, Progress.chunkLen]
      omega
    · exact h.lens c (by omega)
  written := h.written
  entries := by
    intro c hc o ho
    have hc' : c < p.chunks + 1 := hc
    rw [deref_push_chunk _ _ (by rw [h.heap]; omega), h.heap]
    split_ifs with heq
    · subst heq
      have hw : p.written = CHUNK_SIZE * p.chunks := ha
      -- the log ends where the new chunk begins
      rw [MetaChunk.new_get, List.getElem?_eq_none]
      rw [h.written]
      omega
    · exact h.entries c (by omega) o ho
  len := h.len
  index := h.index

/-- Writing the entry next in line puts it at the end of the log. -/
theorem Shape.write_entry (h : Shape s log p) (ha : p.Allows CHUNK_SIZE .write) (entry : T) :
    Shape (s.write_entry (p.written / CHUNK_SIZE) (p.written % CHUNK_SIZE) entry)
      (log ++ [entry]) (p.apply .write) := by
  have hroom : p.written < CHUNK_SIZE * p.chunks := ha.1
  have harc : p.written / CHUNK_SIZE < s.heap.length := by
    rw [h.heap]
    exact Nat.div_lt_of_lt_mul hroom
  -- only the chunk that is written to changes
  have hderef : ∀ c, (s.write_entry (p.written / CHUNK_SIZE) (p.written % CHUNK_SIZE) entry).deref c
      = if c = p.written / CHUNK_SIZE then
          (s.deref (p.written / CHUNK_SIZE)).write (p.written % CHUNK_SIZE) entry
        else s.deref c := fun c => deref_set s _ _ harc c
  refine ⟨h.slots, h.chunks, ?_, ?_, ?_, ?_, h.len, h.index⟩
  · rw [write_entry_heap_length, h.heap]
    rfl
  · intro c hc
    rw [hderef]
    split_ifs with heq
    · rw [MetaChunk.write_published_len, ← heq]
      exact h.lens c hc
    · exact h.lens c hc
  · simp [Progress.apply, h.written]
  · intro c hc o ho
    have hold := h.entries c hc o ho
    rw [hderef]
    by_cases heq : c = p.written / CHUNK_SIZE ∧ o = p.written % CHUNK_SIZE
    · obtain ⟨rfl, rfl⟩ := heq
      -- the position that is written is the end of the log
      rw [if_pos rfl, MetaChunk.write_get _ ho, if_pos rfl, Nat.div_add_mod, ← h.written,
        List.getElem?_concat_length]
    · -- any other position is not the end of the log
      have hne : CHUNK_SIZE * c + o ≠ log.length := by
        rw [h.written]
        intro hpos
        simp only [CHUNK_SIZE] at hpos heq ho
        omega
      have hread : (log ++ [entry])[CHUNK_SIZE * c + o]? = log[CHUNK_SIZE * c + o]? := by
        rcases Nat.lt_or_gt_of_ne hne with hlt | hgt
        · exact List.getElem?_append_left hlt
        · rw [List.getElem?_eq_none (by rw [List.length_append, List.length_singleton]; omega),
            List.getElem?_eq_none (by omega)]
      rw [hread, ← hold]
      split_ifs with hc'
      · subst hc'
        rw [MetaChunk.write_get _ (Nat.mod_lt _ CHUNK_SIZE_pos), if_neg (fun ho' => heq ⟨rfl, ho'⟩)]
      · rfl

/-- Raising one chunk's published length by one publishes one more entry. -/
theorem Shape.store_published_len (h : Shape s log p) (hg : Good CHUNK_SIZE p)
    (ha : p.Allows CHUNK_SIZE .publish) :
    Shape (s.store_published_len (p.published / CHUNK_SIZE) (p.published % CHUNK_SIZE + 1))
      log (p.apply .publish) := by
  have hone : p.written = p.published + 1 := ha
  have hroom : p.published < CHUNK_SIZE * p.chunks := by
    have := hg.written_le
    omega
  have harc : p.published / CHUNK_SIZE < s.heap.length := by
    rw [h.heap]
    exact Nat.div_lt_of_lt_mul hroom
  -- the entries stay, and of the lengths only one is raised
  have hderef : ∀ c, (s.store_published_len (p.published / CHUNK_SIZE)
        (p.published % CHUNK_SIZE + 1)).deref c
      = if c = p.published / CHUNK_SIZE then
          (s.deref (p.published / CHUNK_SIZE)).store_published_len (p.published % CHUNK_SIZE + 1)
        else s.deref c := fun c => deref_set s _ _ harc c
  refine ⟨h.slots, h.chunks, ?_, ?_, h.written, ?_, h.len, h.index⟩
  · rw [store_published_len_heap_length, h.heap]
    rfl
  · intro c hc
    rw [hderef]
    have hlen := h.lens c hc
    split_ifs with heq
    · rw [MetaChunk.store_published_len_published_len]
      simp only [Progress.apply, Progress.chunkLen, hone, CHUNK_SIZE] at heq ⊢
      omega
    · rw [hlen]
      simp only [Progress.apply, Progress.chunkLen, hone, CHUNK_SIZE] at heq ⊢
      omega
  · intro c hc o ho
    rw [hderef, ← h.entries c hc o ho]
    split_ifs with heq
    · rw [MetaChunk.store_published_len_get, heq]
    · rfl

/-- Counting the registration. -/
theorem Shape.count (h : Shape s log p) : Shape s.count log (p.apply .count) :=
  ⟨h.slots, h.chunks, h.heap, h.lens, h.written, h.entries, by
    simp [Chunks.count, Progress.apply, h.len], h.index⟩

/-- Publishing the chunk list. -/
theorem Shape.store_index (h : Shape s log p) : Shape s.store_index log (p.apply .index) :=
  ⟨h.slots, h.chunks, h.heap, h.lens, h.written, h.entries, h.len, by
    simp [Chunks.store_index, Progress.apply, h.chunks]⟩

end Access

/-! ## A whole append -/

/-- The storage after an append: what `allocate` and the scalar `register` do to it. -/
def append (s : Chunks T) (entry : T) : Chunks T :=
  let arc := s.len / CHUNK_SIZE
  let offset := s.len % CHUNK_SIZE
  let fresh := s.chunks.length ≤ arc
  let s := if fresh then s.push_chunk else s
  let s := ((s.write_entry arc offset entry).store_published_len arc (offset + 1)).count
  if fresh then s.store_index else s

section Append

variable {s : Chunks T} {log : List T} {n : ℕ}

/-- The storage once the chunk for the next entry is there. -/
def with_room (s : Chunks T) : Chunks T :=
  if s.chunks.length ≤ s.len / CHUNK_SIZE then s.push_chunk else s

/-- How far the numbers are once the chunk for the next entry is there. -/
def roomy (n : ℕ) : Progress := { settled CHUNK_SIZE n with chunks := chunkCount CHUNK_SIZE (n + 1) }

theorem Shape.fresh_iff (h : Shape s log (settled CHUNK_SIZE n)) :
    s.chunks.length ≤ s.len / CHUNK_SIZE ↔ n % CHUNK_SIZE = 0 := by
  rw [h.chunks, List.length_range, h.len]
  exact chunkCount_le_div_iff CHUNK_SIZE_pos n

/-- A chunk is pushed exactly when the next entry needs one. -/
theorem Shape.with_room (h : Shape s log (settled CHUNK_SIZE n)) :
    Shape s.with_room log (roomy n) ∧ Good CHUNK_SIZE (roomy n) := by
  have hg := good_settled CHUNK_SIZE_pos n
  unfold Chunks.with_room
  by_cases hn : n % CHUNK_SIZE = 0
  · have hc := chunkCount_of_mod_eq_zero CHUNK_SIZE_pos hn
    have hgrow : (settled CHUNK_SIZE n).Allows CHUNK_SIZE .grow := by
      change n = CHUNK_SIZE * chunkCount CHUNK_SIZE n
      rw [hc]
      have := Nat.div_add_mod n CHUNK_SIZE
      omega
    have heq : (settled CHUNK_SIZE n).apply .grow = roomy n := by
      simp [Progress.apply, roomy, settled, chunkCount_succ CHUNK_SIZE_pos, hc]
    rw [if_pos (h.fresh_iff.mpr hn), ← heq]
    exact ⟨h.push_chunk hg hgrow, hg.apply hgrow⟩
  · have heq : settled CHUNK_SIZE n = roomy n := by
      simp [roomy, settled, chunkCount_succ CHUNK_SIZE_pos,
        chunkCount_of_mod_ne_zero CHUNK_SIZE_pos hn]
    rw [if_neg (fun h' => hn (h.fresh_iff.mp h')), ← heq]
    exact ⟨h, hg⟩

theorem div_lt_chunkCount_succ (n : ℕ) : n / CHUNK_SIZE < chunkCount CHUNK_SIZE (n + 1) := by
  rw [chunkCount_succ CHUNK_SIZE_pos]
  exact Nat.lt_succ_self _

/-- The chunk for the next entry is where the code looks for it. -/
theorem Shape.room_chunk (h : Shape s log (settled CHUNK_SIZE n)) :
    s.with_room.slots[n / CHUNK_SIZE]? = some (n / CHUNK_SIZE)
      ∧ s.with_room.chunks[n / CHUNK_SIZE]? = some (n / CHUNK_SIZE) := by
  obtain ⟨hr, -⟩ := h.with_room
  have hlt : n / CHUNK_SIZE < (roomy n).chunks := div_lt_chunkCount_succ n
  rw [hr.slots, hr.chunks]
  simp [hlt]

/-- `publish` meets its debug assertions there. -/
theorem Shape.publish_ok (h : Shape s log (settled CHUNK_SIZE n)) (entry : T) :
    s.with_room.publish (n / CHUNK_SIZE) (n % CHUNK_SIZE) entry
      = .ok ((s.with_room.write_entry (n / CHUNK_SIZE) (n % CHUNK_SIZE) entry).store_published_len
          (n / CHUNK_SIZE) (n % CHUNK_SIZE + 1)) := by
  obtain ⟨hr, -⟩ := h.with_room
  have hlt : n / CHUNK_SIZE < (roomy n).chunks := div_lt_chunkCount_succ n
  refine publish_eq _ entry (by rw [hr.heap]; exact hlt) (Nat.mod_lt n CHUNK_SIZE_pos) ?_
  rw [hr.lens _ hlt]
  have hp : (roomy n).published = n := rfl
  simp only [Progress.chunkLen, hp, CHUNK_SIZE]
  omega

/-- After an append the log is settled again, one entry longer. -/
theorem Shape.append (h : Shape s log (settled CHUNK_SIZE n)) (entry : T) :
    Shape (s.append entry) (log ++ [entry]) (settled CHUNK_SIZE (n + 1)) := by
  obtain ⟨hr, hg⟩ := h.with_room
  have hlen : s.len = n := h.len
  have hwrite : (roomy n).Allows CHUNK_SIZE .write := by
    refine ⟨?_, rfl⟩
    change n < CHUNK_SIZE * chunkCount CHUNK_SIZE (n + 1)
    exact Nat.lt_of_succ_le (le_mul_chunkCount CHUNK_SIZE_pos (n + 1))
  have hwritten := hr.write_entry hwrite entry
  have hpublish : ((roomy n).apply .write).Allows CHUNK_SIZE .publish := rfl
  have hcounted := (hwritten.store_published_len (hg.apply hwrite) hpublish).count
  -- the accesses of the source, up to the index store that depends on a fresh chunk
  have hs : s.append entry = (let s' := ((s.with_room.write_entry (n / CHUNK_SIZE)
        (n % CHUNK_SIZE) entry).store_published_len (n / CHUNK_SIZE) (n % CHUNK_SIZE + 1)).count
      if s.chunks.length ≤ s.len / CHUNK_SIZE then s'.store_index else s') := by
    simp only [Chunks.append, Chunks.with_room, hlen]
  rw [hs]
  dsimp only
  by_cases hn : n % CHUNK_SIZE = 0
  · rw [if_pos (h.fresh_iff.mpr hn)]
    exact hcounted.store_index
  · -- without a new chunk the stored index is still the current one
    rw [if_neg (fun h' => hn (h.fresh_iff.mp h'))]
    have hc : chunkCount CHUNK_SIZE n = chunkCount CHUNK_SIZE (n + 1) := by
      rw [chunkCount_succ CHUNK_SIZE_pos, chunkCount_of_mod_ne_zero CHUNK_SIZE_pos hn]
    have heq : (((roomy n).apply .write).apply .publish).apply .count
        = settled CHUNK_SIZE (n + 1) := by
      simp [Progress.apply, roomy, settled, hc]
    rw [← heq]
    exact hcounted

end Append

/-! ## Traversal -/

/-- Reading a list of positions that are all there. -/
theorem mapM_eq_some {α β : Type} {f : α → Option β} {g : α → β} :
    ∀ {l : List α}, (∀ a ∈ l, f a = some (g a)) → l.mapM f = some (l.map g)
  | [], _ => rfl
  | a :: l, h => by
      rw [List.mapM_cons, h a List.mem_cons_self,
        mapM_eq_some (fun b hb => h b (List.mem_cons_of_mem _ hb))]
      rfl

/-- The part of the log that chunk `c` holds. -/
def chunkPart (log : List T) (c : ℕ) : List T := (log.drop (CHUNK_SIZE * c)).take CHUNK_SIZE

/-- The first `k` chunks hold the log's first `k * CHUNK_SIZE` entries. -/
theorem flatten_chunkParts (log : List T) (k : ℕ) :
    ((List.range k).map (chunkPart log)).flatten = log.take (CHUNK_SIZE * k) := by
  induction k with
  | zero => simp
  | succ k ih =>
    rw [List.range_succ, List.map_append, List.flatten_append, ih, Nat.mul_succ, List.take_add]
    simp [chunkPart]

theorem chunkPart_getElem? (log : List T) {c o : ℕ} (ho : o < CHUNK_SIZE) :
    (chunkPart log c)[o]? = log[CHUNK_SIZE * c + o]? := by
  rw [chunkPart, List.getElem?_take_of_lt ho, List.getElem?_drop]

/-- Reading a chunk up to some length reads a front of its part of the log. -/
theorem Shape.read_chunk {s : Chunks T} {log : List T} {p : Progress} (h : Shape s log p)
    {c : ℕ} (hc : c < p.chunks) {len : ℕ} (hlen : len ≤ CHUNK_SIZE)
    (hwritten : CHUNK_SIZE * c + len ≤ log.length) :
    (List.range len).mapM (s.deref c).get = some ((chunkPart log c).take len) := by
  induction len with
  | zero => rfl
  | succ len ih =>
    have hlt : CHUNK_SIZE * c + len < log.length := by omega
    rw [List.range_succ, List.mapM_append, ih (by omega) (by omega), List.take_add_one,
      chunkPart_getElem? log (by omega), List.getElem?_eq_getElem hlt]
    have hget : (s.deref c).get len = some log[CHUNK_SIZE * c + len] := by
      rw [h.entries c hc len (by omega), List.getElem?_eq_getElem hlt]
    simp [hget]

theorem length_chunkPart (log : List T) (c : ℕ) :
    (chunkPart log c).length = min CHUNK_SIZE (log.length - CHUNK_SIZE * c) := by
  simp [chunkPart]

/-- A traversal of a settled log visits its entries in order. -/
theorem Shape.for_each {s : Chunks T} {log : List T} {n : ℕ}
    (h : Shape s log (settled CHUNK_SIZE n)) : s.for_each = some log := by
  have hn : log.length = n := h.written
  have hread : ∀ c ∈ List.range (chunkCount CHUNK_SIZE n),
      (List.range (s.deref c).published_len).mapM (s.deref c).get = some (chunkPart log c) := by
    intro c hc
    have hc : c < chunkCount CHUNK_SIZE n := List.mem_range.mp hc
    have hlen : (s.deref c).published_len = (chunkPart log c).length := by
      rw [h.lens c hc, length_chunkPart, hn]
      rfl
    have hbound := length_chunkPart log c
    -- an indexed chunk of a settled log is not empty
    have hpos : CHUNK_SIZE * c < n := by
      have h1 : CHUNK_SIZE * (c + 1) ≤ CHUNK_SIZE * chunkCount CHUNK_SIZE n :=
        Nat.mul_le_mul_left _ hc
      have h2 := mul_chunkCount_lt CHUNK_SIZE_pos n
      rw [Nat.mul_succ] at h1
      omega
    rw [hlen, h.read_chunk hc (by omega) (by omega), List.take_length]
  have hindex : s.index = List.range (chunkCount CHUNK_SIZE n) := h.index
  have hall : n ≤ CHUNK_SIZE * chunkCount CHUNK_SIZE n := le_mul_chunkCount CHUNK_SIZE_pos n
  rw [Chunks.for_each, hindex, mapM_eq_some hread]
  simp only [Option.pure_def, Option.bind_eq_bind, Option.bind_some]
  rw [flatten_chunkParts, List.take_of_length_le (by omega)]

/-- The published lengths of a settled log add up to its length. -/
theorem Shape.published_len {s : Chunks T} {log : List T} {n : ℕ}
    (h : Shape s log (settled CHUNK_SIZE n)) : s.published_len = n := by
  have hn : log.length = n := h.written
  have hlens : ∀ c ∈ List.range (chunkCount CHUNK_SIZE n),
      (s.deref c).published_len = (chunkPart log c).length := by
    intro c hc
    rw [h.lens c (List.mem_range.mp hc), length_chunkPart, hn]
    rfl
  have hindex : s.index = List.range (chunkCount CHUNK_SIZE n) := h.index
  have hall : n ≤ CHUNK_SIZE * chunkCount CHUNK_SIZE n := le_mul_chunkCount CHUNK_SIZE_pos n
  rw [Chunks.published_len, hindex, List.map_congr_left hlens]
  have hflat := congrArg List.length (flatten_chunkParts log (chunkCount CHUNK_SIZE n))
  rw [List.length_flatten, List.map_map, List.length_take] at hflat
  rw [show (fun c => (chunkPart log c).length) = List.length ∘ chunkPart log from rfl, hflat]
  omega

end BrzMetrics.Chunks
