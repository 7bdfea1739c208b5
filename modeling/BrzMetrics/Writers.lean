/-
Registrations, one shared-memory access at a time.

A registration holds its shard's mutex while it looks its key up and, if the key
is new, while it goes through the accesses of `ShardState::allocate`
(`src/src/registry.rs`) or of `Shard::register` (`src/src/scalar.rs`): push a
chunk, write the entry, store the chunk's published length, count, publish the
new index, enter the key. `Shard.accesses` and `ScalarShard.accesses` list them
in the order of the source, which is not the same in the two files. Nobody else
changes the shard meanwhile, so the list is known once the mutex is held.

Taken in one go the accesses are the call (`Shard.run_accesses`,
`ScalarShard.run_accesses`). Taken one by one they keep `Lane.Inv`: whatever has
been written so far is the beginning of the registration order, and what is
visible to a reader contains every call that has returned.
-/
import BrzMetrics.ShardInv

set_option autoImplicit false

namespace BrzMetrics

open ChunkLog KeyedStore

/-! ## Accesses -/

/-- One access of a registration that holds the shard's mutex. -/
inductive ShardAccess (T : Type) where
  | push_chunk
  | write_entry (arc offset : ℕ) (entry : T)
  | store_published_len (arc len : ℕ)
  | count
  | store_index
  | insert_key (entry : T)

namespace ShardAccess

variable {T : Type}

/-- The effect on the chunked storage. -/
def on_chunks : ShardAccess T → Chunks T → Chunks T
  | .push_chunk, store => store.push_chunk
  | .write_entry arc offset entry, store => store.write_entry arc offset entry
  | .store_published_len arc len, store => store.store_published_len arc len
  | .count, store => store.count
  | .store_index, store => store.store_index
  | .insert_key _, store => store

/-- What readers notice of an access. -/
def step : ShardAccess T → Step
  | .push_chunk => .grow
  | .write_entry _ _ _ => .write
  | .store_published_len _ _ => .publish
  | .count => .count
  | .store_index => .index
  | .insert_key _ => .other

/-- The arguments of the access are those the numbers call for. -/
def Fits (order : List T) (p : Progress) : ShardAccess T → Prop
  | .write_entry arc offset entry =>
      arc = p.written / CHUNK_SIZE ∧ offset = p.written % CHUNK_SIZE
        ∧ order[p.written]? = some entry
  | .store_published_len arc len =>
      arc = p.published / CHUNK_SIZE ∧ len = p.published % CHUNK_SIZE + 1
  | .push_chunk => True
  | .count => True
  | .store_index => True
  | .insert_key _ => True

/-- The accesses `todo` are right from `p` on and finish the log `order`. -/
def Program (order : List T) : Progress → List (ShardAccess T) → Prop
  | p, [] => p = settled CHUNK_SIZE order.length
  | p, a :: todo =>
      p.Allows CHUNK_SIZE a.step ∧ a.Fits order p ∧ Program order (p.apply a.step) todo

/-- One access of a program keeps the storage in shape. -/
theorem on_chunks_shape {s : Chunks T} {order : List T} {p : Progress} {a : ShardAccess T}
    (h : s.Shape (order.take p.written) p) (hg : Good CHUNK_SIZE p)
    (ha : p.Allows CHUNK_SIZE a.step) (hf : a.Fits order p) :
    (a.on_chunks s).Shape (order.take (p.apply a.step).written) (p.apply a.step) := by
  cases a with
  | push_chunk => exact h.push_chunk hg ha
  | write_entry arc offset entry =>
    obtain ⟨rfl, rfl, hentry⟩ := hf
    have htake : order.take (p.written + 1) = order.take p.written ++ [entry] := by
      rw [List.take_add_one, hentry]
      rfl
    change Chunks.Shape _ (order.take (p.written + 1)) _
    rw [htake]
    exact h.write_entry ha entry
  | store_published_len arc len =>
    obtain ⟨rfl, rfl⟩ := hf
    exact h.store_published_len hg ha
  | count => exact h.count
  | store_index => exact h.store_index
  | insert_key entry => exact h

end ShardAccess

/-! ## The two kinds of shard -/

/-- What timing shards and scalar shards have in common: chunked storage for entries of type
`T`, maps that know keys of type `K`, and registrations, of type `C`, that are lists of
accesses. -/
class ShardKind (σ : Type) (T C K : outParam Type) where
  new : Fin SHARD_COUNT → σ
  store : σ → Chunks T
  /-- The key is in one of the maps. -/
  known : σ → K → Bool
  key : T → K
  call_key : C → K
  /-- The entry a call adds if its key is new. -/
  call_entry : σ → C → T
  /-- What a call with a new key does after its lookup. -/
  accesses : σ → C → List (ShardAccess T)
  apply : ShardAccess T → σ → σ
  store_new : ∀ i, store (new i) = Chunks.new
  known_new : ∀ i k, known (new i) k = false
  store_apply : ∀ a s, store (apply a s) = a.on_chunks (store s)
  known_apply : ∀ a s k, known (apply a s) k = true ↔
    known s k = true ∨ ∃ entry, a = .insert_key entry ∧ k = key entry
  key_call_entry : ∀ s c, key (call_entry s c) = call_key c
  program : ∀ {s : σ} {order : List T} (c : C),
    (store s).Shape order (settled CHUNK_SIZE order.length) →
      ShardAccess.Program (order ++ [call_entry s c]) (settled CHUNK_SIZE order.length) (accesses s c)
  enters : ∀ s c entry, .insert_key entry ∈ accesses s c ↔ entry = call_entry s c
  /-- The invariant between calls, with the entries in order. -/
  holds : σ → List T → Prop
  holds_new : ∀ i, holds (new i) []
  holds_known : ∀ {s : σ} {log : List T}, holds s log →
    ∀ k, known s k = true ↔ k ∈ log.map key
  holds_call : ∀ {s : σ} {log : List T} (c : C), holds s log → known s (call_key c) = false →
    holds ((accesses s c).foldl (fun s a => apply a s) s) (log ++ [call_entry s c])

section Orders

variable {T : Type} {s : Chunks T} {order : List T}

/-- `allocate` counts the entry and publishes the index before the caller enters the key. -/
theorem program_allocate (h : s.Shape order (settled CHUNK_SIZE order.length)) (entry : T) :
    ShardAccess.Program (order ++ [entry]) (settled CHUNK_SIZE order.length)
      ((if s.chunks.length ≤ s.len / CHUNK_SIZE then [ShardAccess.push_chunk] else [])
        ++ [ShardAccess.write_entry (s.len / CHUNK_SIZE) (s.len % CHUNK_SIZE) entry,
          ShardAccess.store_published_len (s.len / CHUNK_SIZE) (s.len % CHUNK_SIZE + 1),
          ShardAccess.count]
        ++ (if s.chunks.length ≤ s.len / CHUNK_SIZE then [ShardAccess.store_index] else [])
        ++ [ShardAccess.insert_key entry]) := by
  have hlen : s.len = order.length := h.len
  have hnext : (order ++ [entry])[order.length]? = some entry := List.getElem?_concat_length
  have hend : (order ++ [entry]).length = order.length + 1 := by simp
  by_cases hn : order.length % CHUNK_SIZE = 0
  · -- the entry starts a chunk
    obtain ⟨hgrow, hwrite, hpublish, hcount, hindex, hother, hq⟩ :=
      (runs_append_fresh CHUNK_SIZE_pos hn).1
    rw [if_pos (h.fresh_iff.mpr hn), if_pos (h.fresh_iff.mpr hn), hlen]
    simp only [List.cons_append, List.nil_append, ShardAccess.Program, ShardAccess.step,
      ShardAccess.Fits]
    exact ⟨hgrow, trivial, hwrite, ⟨rfl, rfl, hnext⟩, hpublish, ⟨rfl, rfl⟩, hcount, trivial,
      hindex, trivial, hother, trivial, hend ▸ hq⟩
  · -- the last chunk has room, and the index is not stored again
    obtain ⟨hwrite, hpublish, hcount, hother, hq⟩ := (runs_append_within CHUNK_SIZE_pos hn).1
    have hold : ¬ s.chunks.length ≤ s.len / CHUNK_SIZE := fun h' => hn (h.fresh_iff.mp h')
    rw [if_neg hold, if_neg hold, hlen]
    simp only [List.cons_append, List.nil_append, ShardAccess.Program, ShardAccess.step,
      ShardAccess.Fits]
    exact ⟨hwrite, ⟨rfl, rfl, hnext⟩, hpublish, ⟨rfl, rfl⟩, hcount, trivial, hother, trivial,
      hend ▸ hq⟩

/-- The scalar `register` enters the key first. -/
theorem program_register (h : s.Shape order (settled CHUNK_SIZE order.length)) (entry : T) :
    ShardAccess.Program (order ++ [entry]) (settled CHUNK_SIZE order.length)
      ((if s.chunks.length ≤ s.len / CHUNK_SIZE then [ShardAccess.push_chunk] else [])
        ++ [ShardAccess.write_entry (s.len / CHUNK_SIZE) (s.len % CHUNK_SIZE) entry,
          ShardAccess.store_published_len (s.len / CHUNK_SIZE) (s.len % CHUNK_SIZE + 1),
          ShardAccess.insert_key entry, ShardAccess.count]
        ++ (if s.chunks.length ≤ s.len / CHUNK_SIZE then [ShardAccess.store_index] else [])) := by
  have hlen : s.len = order.length := h.len
  have hnext : (order ++ [entry])[order.length]? = some entry := List.getElem?_concat_length
  have hend : (order ++ [entry]).length = order.length + 1 := by simp
  by_cases hn : order.length % CHUNK_SIZE = 0
  · -- the entry starts a chunk
    obtain ⟨hgrow, hwrite, hpublish, hother, hcount, hindex, hq⟩ :=
      (runs_append_fresh CHUNK_SIZE_pos hn).2
    rw [if_pos (h.fresh_iff.mpr hn), if_pos (h.fresh_iff.mpr hn), hlen]
    simp only [List.cons_append, List.nil_append, ShardAccess.Program, ShardAccess.step,
      ShardAccess.Fits]
    exact ⟨hgrow, trivial, hwrite, ⟨rfl, rfl, hnext⟩, hpublish, ⟨rfl, rfl⟩, hother, trivial,
      hcount, trivial, hindex, trivial, hend ▸ hq⟩
  · -- the last chunk has room, and the index is not stored again
    obtain ⟨hwrite, hpublish, hother, hcount, hq⟩ := (runs_append_within CHUNK_SIZE_pos hn).2
    have hold : ¬ s.chunks.length ≤ s.len / CHUNK_SIZE := fun h' => hn (h.fresh_iff.mp h')
    rw [if_neg hold, if_neg hold, hlen]
    simp only [List.cons_append, List.nil_append, ShardAccess.Program, ShardAccess.step,
      ShardAccess.Fits]
    exact ⟨hwrite, ⟨rfl, rfl, hnext⟩, hpublish, ⟨rfl, rfl⟩, hother, trivial, hcount, trivial,
      hend ▸ hq⟩

end Orders

namespace Shard

/-- The metadata `allocate` makes for a profile. -/
def call_entry (self : Shard) (profile : ProfileMeta) : MetricMeta :=
  { item := item_at self.id self.store.len, profile := profile }

/-- `ShardState::allocate`, then the `insert` of its caller. -/
def accesses (self : Shard) (profile : ProfileMeta) : List (ShardAccess MetricMeta) :=
  let index := self.store.len
  let chunk_index := index / CHUNK_SIZE
  let offset := index % CHUNK_SIZE
  let is_new_chunk := self.store.chunks.length ≤ chunk_index
  let entry := self.call_entry profile
  (if is_new_chunk then [ShardAccess.push_chunk] else [])
    ++ [ShardAccess.write_entry chunk_index offset entry,
      ShardAccess.store_published_len chunk_index (offset + 1), ShardAccess.count]
    ++ (if is_new_chunk then [ShardAccess.store_index] else [])
    ++ [ShardAccess.insert_key entry]

/-- The effect of an access on the shard. -/
def apply : ShardAccess MetricMeta → Shard → Shard
  | .insert_key entry, self => insert_key entry.profile entry.item self
  | .push_chunk, self => self.on_store Chunks.push_chunk
  | .write_entry arc offset entry, self =>
      self.on_store (fun store => store.write_entry arc offset entry)
  | .store_published_len arc len, self =>
      self.on_store (fun store => store.store_published_len arc len)
  | .count, self => self.on_store Chunks.count
  | .store_index, self => self.on_store Chunks.store_index

/-- The accesses of a call with a new key, taken in one go, are the call. -/
theorem run_accesses {s : Shard} {log : List MetricMeta} (h : s.Inv log) (profile : ProfileMeta)
    (hfind : s.find profile.key = none) :
    enroll profile s = .ok (Metric.from_item (s.call_entry profile).item profile.policy)
      ((s.accesses profile).foldl (fun s a => apply a s) s) := by
  have hlen : s.store.len = log.length := h.holds.store.len
  rw [enroll_eq h.healthy, hfind, allocate_eq h]
  simp only [call_entry, accesses, Chunks.append, hlen]
  by_cases hnew : s.store.chunks.length ≤ log.length / CHUNK_SIZE
  · simp [hnew, hlen, apply, on_store]
  · simp [hnew, hlen, apply, on_store]

/-- They keep the invariant of the shard. -/
theorem inv_accesses {s : Shard} {log : List MetricMeta} (h : s.Inv log) (profile : ProfileMeta)
    (hfind : s.find profile.key = none) :
    ((s.accesses profile).foldl (fun s a => apply a s) s).Inv (log ++ [s.call_entry profile]) := by
  obtain ⟨item, s', hcall, -, hinv, -⟩ := enroll_spec h profile
  rw [run_accesses h profile hfind, EStateM.Result.ok.injEq] at hcall
  have hkey := (h.holds.find_eq_none _).mp hfind
  rw [KeyedStore.enroll_of_notMem _ hkey, ← hcall.2] at hinv
  have hlen : s.store.len = log.length := h.holds.store.len
  rwa [call_entry, hlen]

instance : ShardKind Shard MetricMeta ProfileMeta TimingKey where
  new := new
  store := store
  known s k := (s.find k).isSome
  key m := m.profile.key
  call_key := ProfileMeta.key
  call_entry := call_entry
  accesses := accesses
  apply := apply
  store_new _ := rfl
  known_new i k := by cases k <;> rfl
  store_apply a s := by
    cases a <;> first | rfl | exact insert_key_store _ _ _
  known_apply a s k := by
    cases a with
    | insert_key entry =>
      simp only [apply, find_insert_key, ShardAccess.insert_key.injEq, exists_eq_left']
      split_ifs with hk <;> simp [hk]
    | push_chunk => simp [apply, on_store, find, existing, existing_profile]
    | write_entry arc offset entry => simp [apply, on_store, find, existing, existing_profile]
    | store_published_len arc len => simp [apply, on_store, find, existing, existing_profile]
    | count => simp [apply, on_store, find, existing, existing_profile]
    | store_index => simp [apply, on_store, find, existing, existing_profile]
  key_call_entry _ _ := rfl
  program c h := program_allocate h _
  enters s c entry := by
    unfold accesses
    dsimp only
    split_ifs <;> simp
  holds := Inv
  holds_new := inv_new
  holds_known h := h.holds.isSome_find_iff
  holds_call c h hfind := inv_accesses h c (by simpa using hfind)

end Shard

namespace ScalarShard

/-- The arguments of `Shard::register`. -/
structure Request where
  kind : MetricType
  mode : ScalarKind
  name : String
  resource : Option ResourceLabels

/-- The key the call looks up. -/
def Request.key (self : Request) : ScalarKey :=
  call_key self.kind self.mode self.name self.resource

/-- The metadata the call makes. -/
def Request.entry (self : Request) (shard : ScalarShard) : ScalarMeta :=
  call_entry shard.id shard.store.len self.kind self.mode self.name self.resource

theorem Request.key_entry (self : Request) (shard : ScalarShard) :
    (self.entry shard).key = self.key := by
  obtain ⟨kind, mode, name, resource⟩ := self
  cases resource <;> rfl

/-- `Shard::register` after its lookup has failed. -/
def accesses (self : ScalarShard) (request : Request) : List (ShardAccess ScalarMeta) :=
  let chunk := self.store.len / CHUNK_SIZE
  let offset := self.store.len % CHUNK_SIZE
  let added := self.store.chunks.length ≤ chunk
  let entry := request.entry self
  (if added then [ShardAccess.push_chunk] else [])
    ++ [ShardAccess.write_entry chunk offset entry,
      ShardAccess.store_published_len chunk (offset + 1), ShardAccess.insert_key entry,
      ShardAccess.count]
    ++ (if added then [ShardAccess.store_index] else [])

/-- The effect of an access on the shard. -/
def apply : ShardAccess ScalarMeta → ScalarShard → ScalarShard
  | .insert_key entry, self => insert_key entry self
  | .push_chunk, self => self.on_store Chunks.push_chunk
  | .write_entry arc offset entry, self =>
      self.on_store (fun store => store.write_entry arc offset entry)
  | .store_published_len arc len, self =>
      self.on_store (fun store => store.store_published_len arc len)
  | .count, self => self.on_store Chunks.count
  | .store_index, self => self.on_store Chunks.store_index

/-- The accesses of a call with a new key, taken in one go, are the call. -/
theorem run_accesses {s : ScalarShard} {log : List ScalarMeta} (h : s.Inv log) (request : Request)
    (hfind : s.find request.key = none) :
    register request.kind request.mode request.name request.resource s
      = .ok (request.entry s).item ((s.accesses request).foldl (fun s a => apply a s) s) := by
  have hlen : s.store.len = log.length := h.holds.store.len
  rw [register_new h _ _ _ _ hfind]
  simp only [Request.entry, accesses, Chunks.append, hlen]
  by_cases hnew : s.store.chunks.length ≤ log.length / CHUNK_SIZE <;>
    cases hresource : request.resource <;>
    simp [hnew, hlen, apply, on_store, insert_key, call_entry]

/-- They keep the invariant of the shard. -/
theorem inv_accesses {s : ScalarShard} {log : List ScalarMeta} (h : s.Inv log) (request : Request)
    (hfind : s.find request.key = none) :
    ((s.accesses request).foldl (fun s a => apply a s) s).Inv (log ++ [request.entry s]) := by
  obtain ⟨item, s', hcall, -, hinv, -⟩ :=
    register_spec h request.kind request.mode request.name request.resource
  rw [run_accesses h request hfind, EStateM.Result.ok.injEq] at hcall
  have hlen : s.store.len = log.length := h.holds.store.len
  have hkey := (h.holds.find_eq_none _).mp hfind
  rw [← request.key_entry s, Request.entry, hlen] at hkey
  rw [enroll_of_notMem _ hkey, ← hcall.2] at hinv
  rwa [Request.entry, hlen]

instance : ShardKind ScalarShard ScalarMeta Request ScalarKey where
  new := new
  store := store
  known s k := (s.find k).isSome
  key := ScalarMeta.key
  call_key := Request.key
  call_entry s request := request.entry s
  accesses := accesses
  apply := apply
  store_new _ := rfl
  known_new i k := by cases k <;> rfl
  store_apply a s := by
    cases a <;> first | rfl | exact insert_key_store _ _
  known_apply a s k := by
    cases a with
    | insert_key entry =>
      simp only [apply, find_insert_key, ShardAccess.insert_key.injEq, exists_eq_left']
      split_ifs with hk <;> simp [hk]
    | push_chunk => cases k <;> simp [apply, on_store, find]
    | write_entry arc offset entry => cases k <;> simp [apply, on_store, find]
    | store_published_len arc len => cases k <;> simp [apply, on_store, find]
    | count => cases k <;> simp [apply, on_store, find]
    | store_index => cases k <;> simp [apply, on_store, find]
  key_call_entry s request := request.key_entry s
  program request h := program_register h _
  enters s request entry := by
    unfold accesses
    dsimp only
    split_ifs <;> simp
  holds := Inv
  holds_new := inv_new
  holds_known h := h.holds.isSome_find_iff
  holds_call request h hfind := inv_accesses h request (by simpa using hfind)

end ScalarShard

/-! ## A shard under its mutex -/

/-- One shard. `holder` is the call that holds the mutex, its key and the accesses it has left.
`order` and `returned` record what happened: the entries in the order in which the first calls
with their keys took the mutex, and the keys of the calls that have returned. -/
structure Lane (σ T K : Type) where
  shard : σ
  holder : Option (K × List (ShardAccess T))
  order : List T
  returned : List K

namespace Lane

variable {σ T C K : Type} [ShardKind σ T C K]

/-- A new shard. -/
def new (i : Fin SHARD_COUNT) : Lane σ T K :=
  { shard := ShardKind.new i, holder := none, order := [], returned := [] }

/-- What the holder of the mutex has left to do. -/
def todo (self : Lane σ T K) : List (ShardAccess T) :=
  (self.holder.map Prod.snd).getD []

/-- A call takes the mutex and looks its key up. -/
def lock [DecidableEq K] (call : C) (self : Lane σ T K) : Option (Lane σ T K) :=
  match self.holder with
  | some _ => none
  | none =>
    let k := ShardKind.call_key σ call
    some { self with
      holder := some (k,
        if ShardKind.known self.shard k then [] else ShardKind.accesses self.shard call)
      order := enroll (ShardKind.key σ) self.order (ShardKind.call_entry self.shard call) }

/-- The holder of the mutex makes its next access. -/
def access (self : Lane σ T K) : Option (Lane σ T K) :=
  match self.holder with
  | some (k, a :: todo) =>
    some { self with shard := ShardKind.apply a self.shard, holder := some (k, todo) }
  | some (_, []) => none
  | none => none

/-- The call returns. -/
def unlock (self : Lane σ T K) : Option (Lane σ T K) :=
  match self.holder with
  | some (k, []) => some { self with holder := none, returned := self.returned ++ [k] }
  | some (_, _ :: _) => none
  | none => none

/-- What holds of a shard whenever nobody is in the middle of an access. -/
structure Inv (l : Lane σ T K) (p : Progress) : Prop where
  /-- What has been written is the beginning of the registration order. -/
  shape : (ShardKind.store l.shard).Shape (l.order.take p.written) p
  good : Good CHUNK_SIZE p
  program : ShardAccess.Program l.order p l.todo
  /-- The maps know the keys of the order, but for one still to be entered. -/
  known : ∀ k, k ∈ l.order.map (ShardKind.key σ) ↔ ShardKind.known l.shard k = true
    ∨ ∃ entry, ShardAccess.insert_key entry ∈ l.todo ∧ k = ShardKind.key σ entry
  nodup : (l.order.map (ShardKind.key σ)).Nodup
  calling : ∀ k todo, l.holder = some (k, todo) → k ∈ l.order.map (ShardKind.key σ)
  /-- A call that has returned is visible. -/
  returned : ∀ k ∈ l.returned, k ∈ (l.order.take (p.visible CHUNK_SIZE)).map (ShardKind.key σ)

theorem inv_new (i : Fin SHARD_COUNT) : (new i : Lane σ T K).Inv (settled CHUNK_SIZE 0) where
  shape := by
    have hshape := Chunks.shape_new (T := T)
    rwa [← ShardKind.store_new (σ := σ) i] at hshape
  good := good_settled CHUNK_SIZE_pos 0
  program := rfl
  known k := by simp [new, todo, ShardKind.known_new]
  nodup := List.nodup_nil
  calling := fun _ _ h => absurd h (by simp [new])
  returned := fun _ h => absurd h List.not_mem_nil

section Steps

variable {l l' : Lane σ T K} {p : Progress}

/-- A call adds its key to the order when it takes the mutex, if nobody has before. -/
theorem lock_order [DecidableEq K] {call : C} (hl : l.lock call = some l') :
    l'.order = enroll (ShardKind.key σ) l.order (ShardKind.call_entry l.shard call) := by
  cases hholder : l.holder with
  | some held => simp [Lane.lock, hholder] at hl
  | none =>
    simp only [Lane.lock, hholder, Option.some.injEq] at hl
    rw [← hl]

theorem access_order (hl : l.access = some l') : l'.order = l.order := by
  rcases hholder : l.holder with _ | ⟨k, _ | ⟨a, todo⟩⟩ <;>
    simp only [Lane.access, hholder, Option.some.injEq, reduceCtorEq] at hl
  rw [← hl]

theorem unlock_order (hl : l.unlock = some l') : l'.order = l.order := by
  rcases hholder : l.holder with _ | ⟨k, _ | ⟨a, todo⟩⟩ <;>
    simp only [Lane.unlock, hholder, Option.some.injEq, reduceCtorEq] at hl
  rw [← hl]

/-- A shard whose mutex is free, or is about to be, is settled. -/
theorem Inv.settled_of_done (h : l.Inv p) (hdone : l.todo = []) :
    p = settled CHUNK_SIZE l.order.length := by
  have hp := h.program
  rwa [hdone] at hp

theorem Inv.lock [DecidableEq K] {call : C} (h : l.Inv p) (hl : l.lock call = some l') :
    l'.Inv p := by
  unfold Lane.lock at hl
  cases hholder : l.holder with
  | some held => simp [hholder] at hl
  | none =>
    have htodo : l.todo = [] := by simp [todo, hholder]
    obtain rfl := h.settled_of_done htodo
    have hknown := h.known
    simp only [htodo, List.not_mem_nil, false_and, exists_false, or_false] at hknown
    have hentry := ShardKind.key_call_entry l.shard call
    have hshape := h.shape
    simp only [settled, List.take_length] at hshape
    simp only [hholder, Option.some.injEq] at hl
    subst hl
    by_cases hk : ShardKind.known l.shard (ShardKind.call_key σ call) = true
    · -- a known key: the call will only read, and then release the mutex
      have hmem := (hknown _).mpr hk
      rw [if_pos hk, enroll_of_mem _ (by rw [hentry]; exact hmem)]
      refine ⟨h.shape, h.good, rfl, ?_, h.nodup, ?_, h.returned⟩
      · simpa [todo] using hknown
      · rintro k todo ⟨⟩
        exact hmem
    · -- a new key: the entry joins the order now, and the call has all its accesses to do
      have hmem : ShardKind.key σ (ShardKind.call_entry l.shard call)
          ∉ l.order.map (ShardKind.key σ) := by
        rw [hentry]
        exact fun hmem => hk ((hknown _).mp hmem)
      rw [if_neg hk, enroll_of_notMem _ hmem]
      have hpre : l.order <+: l.order ++ [ShardKind.call_entry l.shard call] :=
        List.prefix_append _ _
      refine ⟨?_, h.good, ShardKind.program call hshape, ?_, ?_, ?_, ?_⟩
      · change Chunks.Shape _ (List.take l.order.length _) _
        rw [List.take_left]
        exact hshape
      · intro k
        simp only [todo, List.map_append, List.mem_append, hknown, ShardKind.enters,
          Option.map_some, Option.getD_some, exists_eq_left, List.map_singleton,
          List.mem_singleton]
      · rw [List.map_append]
        exact List.nodup_append.mpr ⟨h.nodup, List.nodup_singleton _,
          fun a ha b hb heq => hmem (by rw [← List.mem_singleton.mp hb, ← heq]; exact ha)⟩
      · rintro k todo ⟨⟩
        rw [List.map_append, List.map_singleton, hentry]
        exact List.mem_append_right _ (List.mem_singleton_self _)
      · intro k hk'
        exact ((hpre.take _).map _).subset (h.returned k hk')

theorem Inv.access (h : l.Inv p) (hl : l.access = some l') :
    ∃ p', l'.Inv p' ∧ p.Le p' := by
  unfold Lane.access at hl
  rcases hholder : l.holder with _ | ⟨k, _ | ⟨a, todo⟩⟩
  · simp [hholder] at hl
  · simp [hholder] at hl
  · simp only [hholder, Option.some.injEq] at hl
    subst hl
    have htodo : l.todo = a :: todo := by simp [Lane.todo, hholder]
    have hprogram := h.program
    rw [htodo] at hprogram
    obtain ⟨hallows, hfits, hrest⟩ := hprogram
    have hle := h.good.le_apply a.step
    refine ⟨p.apply a.step, ⟨?_, h.good.apply hallows, hrest, ?_, h.nodup, ?_, ?_⟩, hle⟩
    · dsimp only
      rw [ShardKind.store_apply]
      exact ShardAccess.on_chunks_shape h.shape h.good hallows hfits
    · intro k'
      -- a key entered by this access moves from what is left to what the maps know
      rw [h.known, htodo, ShardKind.known_apply, or_assoc]
      refine or_congr_right ⟨?_, ?_⟩
      · rintro ⟨entry, hmem, hkey⟩
        rcases List.mem_cons.mp hmem with ha | hmem
        · exact .inl ⟨entry, ha.symm, hkey⟩
        · exact .inr ⟨entry, hmem, hkey⟩
      · rintro (⟨entry, ha, hkey⟩ | ⟨entry, hmem, hkey⟩)
        · exact ⟨entry, ha ▸ List.mem_cons_self, hkey⟩
        · exact ⟨entry, List.mem_cons_of_mem _ hmem, hkey⟩
    · rintro k' todo' ⟨⟩
      exact h.calling _ _ hholder
    · intro k' hk'
      exact ((List.take_prefix_take_left hle.visible_le).map _).subset (h.returned k' hk')

theorem Inv.unlock (h : l.Inv p) (hl : l.unlock = some l') : l'.Inv p := by
  unfold Lane.unlock at hl
  rcases hholder : l.holder with _ | ⟨k, _ | ⟨a, todo⟩⟩
  · simp [hholder] at hl
  · simp only [hholder, Option.some.injEq] at hl
    subst hl
    have htodo : l.todo = [] := by simp [Lane.todo, hholder]
    obtain rfl := h.settled_of_done htodo
    have hknown := h.known
    rw [htodo] at hknown
    refine ⟨h.shape, h.good, rfl, hknown, h.nodup, ?_, ?_⟩
    · rintro k' todo' ⟨⟩
    · intro k' hk'
      rcases List.mem_append.mp hk' with hk' | hk'
      · exact h.returned k' hk'
      · -- with the accesses done everything is visible, the caller's entry too
        rw [visible_settled CHUNK_SIZE_pos, List.take_length, List.mem_singleton.mp hk']
        exact h.calling _ _ hholder
  · simp [hholder] at hl

/-- The shard as the holder of the mutex will leave it. -/
def outcome (self : Lane σ T K) : σ :=
  self.todo.foldl (fun s a => ShardKind.apply a s) self.shard

theorem outcome_new (i : Fin SHARD_COUNT) :
    ShardKind.holds (new i : Lane σ T K).outcome [] := ShardKind.holds_new i

/-- Taking the mutex decides what the call does to the shard. -/
theorem outcome_lock [DecidableEq K] {call : C} (h : ShardKind.holds l.outcome l.order)
    (hl : l.lock call = some l') : ShardKind.holds l'.outcome l'.order := by
  unfold Lane.lock at hl
  cases hholder : l.holder with
  | some held => simp [hholder] at hl
  | none =>
    simp only [outcome, todo, hholder, Option.map_none, Option.getD_none, List.foldl_nil] at h
    simp only [hholder, Option.some.injEq] at hl
    subst hl
    have hknown := ShardKind.holds_known h (ShardKind.call_key σ call)
    have hentry := ShardKind.key_call_entry l.shard call
    simp only [outcome, todo, Option.map_some, Option.getD_some]
    by_cases hk : ShardKind.known l.shard (ShardKind.call_key σ call) = true
    · rw [if_pos hk, enroll_of_mem _ (by rw [hentry]; exact hknown.mp hk)]
      exact h
    · rw [if_neg hk, enroll_of_notMem _ (by rw [hentry]; exact fun hmem => hk (hknown.mpr hmem))]
      exact ShardKind.holds_call call h (Bool.eq_false_iff.mpr hk)

/-- The accesses only carry it out. -/
theorem outcome_access (hl : l.access = some l') : l'.outcome = l.outcome := by
  rcases hholder : l.holder with _ | ⟨k, _ | ⟨a, todo⟩⟩ <;>
    simp only [Lane.access, hholder, Option.some.injEq, reduceCtorEq] at hl
  rw [← hl]
  simp [outcome, Lane.todo, hholder]

theorem outcome_unlock (hl : l.unlock = some l') : l'.outcome = l.outcome := by
  rcases hholder : l.holder with _ | ⟨k, _ | ⟨a, todo⟩⟩ <;>
    simp only [Lane.unlock, hholder, Option.some.injEq, reduceCtorEq] at hl
  rw [← hl]
  simp [outcome, Lane.todo, hholder]

end Steps

end Lane

end BrzMetrics
