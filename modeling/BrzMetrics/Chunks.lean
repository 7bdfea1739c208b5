/-
Chunked storage of a registry shard (`src/src/registry.rs`), for any type of
metadata: `MetaChunk`, the published `ShardIndex`, and the vectors a shard keeps
beside them. The timing shard and the scalar shard both consist of these fields
and their own hash maps, so the fields are grouped here as `Chunks`.

An `Arc<MetaChunk>` is a position in `heap`, the chunks allocated so far: the
shard's own list of chunks and the published index hold positions, so that
writing to a chunk shows through both, as it does through shared pointers. A
boxed slot chunk is likewise named by its position.

The functions that change shared memory are one access each (`write_entry`,
`store_published_len`, `store_index`); `publish` is two of them behind its debug
assertions. A failing assertion or an index out of range is an error with the
panic's message.
-/
import BrzMetrics.Plan
import BrzMetrics.ChunkLog

set_option autoImplicit false

namespace BrzMetrics

open ChunkLog

/-- `v[i]`: a panic when the index is out of range. -/
def index_vec {σ α : Type} (v : List α) (i : ℕ) : EStateM String σ α :=
  match v[i]? with
  | some a => pure a
  | none => throw "index out of bounds"

/-- Metadata for up to `CHUNK_SIZE` metrics. An entry is `none` until it is written. -/
structure MetaChunk (T : Type) where
  entries : Fin CHUNK_SIZE → Option T
  published_len : ℕ

namespace MetaChunk

variable {T : Type}

/-- `MetaChunk::new`. -/
def new : MetaChunk T := { entries := fun _ => none, published_len := 0 }

/-- The write of one entry in `MetaChunk::publish`. -/
def write (self : MetaChunk T) (offset : ℕ) (entry : T) : MetaChunk T :=
  if h : offset < CHUNK_SIZE then
    { self with entries := Function.update self.entries ⟨offset, h⟩ (some entry) }
  else self

/-- `self.published_len.store(len, Ordering::Release)`. -/
def store_published_len (self : MetaChunk T) (len : ℕ) : MetaChunk T :=
  { self with published_len := len }

/-- `MetaChunk::publish`, with its two debug assertions. -/
def publish (self : MetaChunk T) (offset : ℕ) (entry : T) : Except String (MetaChunk T) :=
  if ¬ offset < CHUNK_SIZE then .error "assertion failed: offset < CHUNK_SIZE"
  else if self.published_len ≠ offset then .error "assertion `left == right` failed"
  else .ok ((self.write offset entry).store_published_len (offset + 1))

/-- `MetaChunk::get`: `none` stands for reading memory that was never initialized. -/
def get (self : MetaChunk T) (offset : ℕ) : Option T :=
  if h : offset < CHUNK_SIZE then self.entries ⟨offset, h⟩ else none

@[simp] theorem new_published_len : (new : MetaChunk T).published_len = 0 := rfl

@[simp] theorem new_get (offset : ℕ) : (new : MetaChunk T).get offset = none := by
  simp [get, new]

@[simp] theorem write_published_len (self : MetaChunk T) (offset : ℕ) (entry : T) :
    (self.write offset entry).published_len = self.published_len := by
  unfold write
  split <;> rfl

@[simp] theorem store_published_len_published_len (self : MetaChunk T) (len : ℕ) :
    (self.store_published_len len).published_len = len := rfl

@[simp] theorem store_published_len_get (self : MetaChunk T) (len offset : ℕ) :
    (self.store_published_len len).get offset = self.get offset := rfl

/-- A write is seen at its own offset and nowhere else. -/
theorem write_get (self : MetaChunk T) {offset : ℕ} (h : offset < CHUNK_SIZE) (entry : T) (o : ℕ) :
    (self.write offset entry).get o = if o = offset then some entry else self.get o := by
  unfold get write
  rw [dif_pos h]
  by_cases ho : o < CHUNK_SIZE
  · simp only [dif_pos ho, Function.update_apply, Fin.mk.injEq]
  · rw [dif_neg ho, dif_neg ho, if_neg (by omega)]

end MetaChunk

/-- What a shard keeps beside its hash maps.

* `slots`: `Vec<Box<[Slot; CHUNK_SIZE]>>`;
* `chunks`: `Vec<Arc<MetaChunk<T>>>` (`meta_chunks` in the timing shard);
* `len`: the number of registrations;
* `index`: the chunk list of the published `ShardIndex`;
* `heap`: the chunks themselves. -/
structure Chunks (T : Type) where
  slots : List ℕ
  chunks : List ℕ
  len : ℕ
  index : List ℕ
  heap : List (MetaChunk T)

namespace Chunks

variable {T : Type}

/-- The storage of a new shard. -/
def new : Chunks T := { slots := [], chunks := [], len := 0, index := [], heap := [] }

/-- The chunk an `Arc` points to. -/
def deref (self : Chunks T) (arc : ℕ) : MetaChunk T := self.heap.getD arc MetaChunk.new

/-- Push a boxed array of default slots and an empty metadata chunk. -/
def push_chunk (self : Chunks T) : Chunks T :=
  { self with
    slots := self.slots ++ [self.slots.length]
    chunks := self.chunks ++ [self.heap.length]
    heap := self.heap ++ [MetaChunk.new] }

/-- The write of an entry to the chunk behind `arc`. -/
def write_entry (self : Chunks T) (arc offset : ℕ) (entry : T) : Chunks T :=
  { self with heap := self.heap.set arc ((self.deref arc).write offset entry) }

/-- The store of the published length of the chunk behind `arc`. -/
def store_published_len (self : Chunks T) (arc len : ℕ) : Chunks T :=
  { self with heap := self.heap.set arc ((self.deref arc).store_published_len len) }

/-- `self.len += 1`. -/
def count (self : Chunks T) : Chunks T := { self with len := self.len + 1 }

/-- `published_index.store(..)` with a copy of the current chunk list. -/
def store_index (self : Chunks T) : Chunks T := { self with index := self.chunks }

/-- `MetaChunk::publish` on the chunk behind `arc`. -/
def publish (self : Chunks T) (arc offset : ℕ) (entry : T) : Except String (Chunks T) :=
  ((self.deref arc).publish offset entry).map
    (fun chunk => { self with heap := self.heap.set arc chunk })

/-- One shard's part of `for_each_meta` and `ScalarRegistry::for_each`: the entries the closure
is called with, in order. -/
def for_each (self : Chunks T) : Option (List T) := do
  let visited ← self.index.mapM (fun arc =>
    let chunk := self.deref arc
    (List.range chunk.published_len).mapM chunk.get)
  return visited.flatten

/-- One shard's part of `len`. -/
def published_len (self : Chunks T) : ℕ :=
  (self.index.map (fun arc => (self.deref arc).published_len)).sum

/-! ## Reading back one access -/

section Frame

variable (self : Chunks T) (arc offset len : ℕ) (entry : T)

@[simp] theorem write_entry_slots : (self.write_entry arc offset entry).slots = self.slots := rfl
@[simp] theorem write_entry_chunks : (self.write_entry arc offset entry).chunks = self.chunks := rfl
@[simp] theorem write_entry_len : (self.write_entry arc offset entry).len = self.len := rfl
@[simp] theorem write_entry_index : (self.write_entry arc offset entry).index = self.index := rfl

@[simp] theorem store_published_len_slots :
    (self.store_published_len arc len).slots = self.slots := rfl
@[simp] theorem store_published_len_chunks :
    (self.store_published_len arc len).chunks = self.chunks := rfl
@[simp] theorem store_published_len_len :
    (self.store_published_len arc len).len = self.len := rfl
@[simp] theorem store_published_len_index :
    (self.store_published_len arc len).index = self.index := rfl

@[simp] theorem write_entry_heap_length :
    (self.write_entry arc offset entry).heap.length = self.heap.length := by
  simp [write_entry]

@[simp] theorem store_published_len_heap_length :
    (self.store_published_len arc len).heap.length = self.heap.length := by
  simp [store_published_len]

theorem deref_set (chunk : MetaChunk T) (h : arc < self.heap.length) (c : ℕ) :
    ({ self with heap := self.heap.set arc chunk } : Chunks T).deref c
      = if c = arc then chunk else self.deref c := by
  unfold deref
  by_cases hc : c = arc
  · subst hc
    simp [List.getD_eq_getElem?_getD, h]
  · rw [if_neg hc]
    simp only [List.getD_eq_getElem?_getD, List.getElem?_set_ne (Ne.symm hc)]

theorem deref_push_chunk (c : ℕ) (h : c ≤ self.heap.length) :
    self.push_chunk.deref c = if c = self.heap.length then MetaChunk.new else self.deref c := by
  unfold deref push_chunk
  by_cases hc : c = self.heap.length
  · subst hc
    simp [List.getD_eq_getElem?_getD]
  · rw [if_neg hc, List.getD_eq_getElem?_getD, List.getElem?_append_left (by omega),
      ← List.getD_eq_getElem?_getD]

end Frame

/-- `publish` with its assertions met is the write followed by the store of the length. -/
theorem publish_eq (self : Chunks T) {arc offset : ℕ} (entry : T) (harc : arc < self.heap.length)
    (ho : offset < CHUNK_SIZE) (hlen : (self.deref arc).published_len = offset) :
    self.publish arc offset entry
      = .ok ((self.write_entry arc offset entry).store_published_len arc (offset + 1)) := by
  have hderef : (self.write_entry arc offset entry).deref arc
      = (self.deref arc).write offset entry := by
    rw [write_entry, deref_set self arc _ harc, if_pos rfl]
  rw [publish, MetaChunk.publish, if_neg (not_not.mpr ho), if_neg (not_not.mpr hlen),
    store_published_len, hderef]
  simp [Except.map, write_entry]

end Chunks

end BrzMetrics
