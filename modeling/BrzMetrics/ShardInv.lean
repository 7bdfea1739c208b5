/-
What a registration does to a shard.

Both shard types keep a log of metadata in chunked storage and hash maps from
keys to slots. `Holds` is the invariant they share: the storage holds the log,
entry `i` of the log points to the slot at position `i`, no key occurs twice,
and the maps find exactly the slots of the logged keys.

The registration paths (three for timing shards, two for scalar shards) then
have one specification, `Shard.enroll_spec` and `ScalarShard.register_spec`: the
call returns the slot of its key, and the log is `enroll`ed, that is, extended by
the new entry unless its key was already there.
-/
import BrzMetrics.ChunkShape
import BrzMetrics.KeyedStore
import BrzMetrics.Registry

set_option autoImplicit false

namespace BrzMetrics

open ChunkLog Chunks KeyedStore

/-! ## The invariant of a shard -/

/-- The storage and the maps of a shard hold `log`. -/
structure Holds {T K P : Type} (key : T → K) (item : T → P) (at_ : ℕ → P) (store : Chunks T)
    (find : K → Option P) (log : List T) : Prop where
  store : store.Shape log (settled CHUNK_SIZE log.length)
  items : log.map item = (List.range log.length).map at_
  nodup : (log.map key).Nodup
  find : ∀ k p, find k = some p ↔ ∃ entry ∈ log, key entry = k ∧ item entry = p

section Holds

variable {T K P : Type} {key : T → K} {item : T → P} {at_ : ℕ → P} {store : Chunks T}
  {find : K → Option P} {log : List T}

/-- A key is found exactly when it is logged. -/
theorem Holds.find_eq_none (h : Holds key item at_ store find log) (k : K) :
    find k = none ↔ k ∉ log.map key := by
  rw [Option.eq_none_iff_forall_ne_some]
  constructor
  · intro hnone hk
    obtain ⟨entry, hentry, rfl⟩ := List.mem_map.mp hk
    exact hnone (item entry) ((h.find _ _).mpr ⟨entry, hentry, rfl, rfl⟩)
  · intro hk p hp
    obtain ⟨entry, hentry, hkey, -⟩ := (h.find _ _).mp hp
    exact hk (List.mem_map.mpr ⟨entry, hentry, hkey⟩)

theorem Holds.isSome_find_iff (h : Holds key item at_ store find log) (k : K) :
    (find k).isSome = true ↔ k ∈ log.map key := by
  rw [← not_iff_not, ← h.find_eq_none, Bool.not_eq_true, Option.isSome_eq_false_iff,
    Option.isNone_iff_eq_none]

/-- Appending an entry under a new key, with the slot next in line. -/
theorem Holds.append (h : Holds key item at_ store find log) {entry : T} {find' : K → Option P}
    [DecidableEq K] (hkey : key entry ∉ log.map key) (hitem : item entry = at_ log.length)
    (hfind : ∀ k, find' k = if k = key entry then some (item entry) else find k) :
    Holds key item at_ (store.append entry) find' (log ++ [entry]) where
  store := by
    rw [List.length_append, List.length_singleton]
    exact h.store.append entry
  items := by
    rw [List.map_append, h.items, List.length_append, List.length_singleton, List.range_succ,
      List.map_append, List.map_singleton, List.map_singleton, hitem]
  nodup := by
    rw [List.map_append, List.map_singleton]
    exact List.nodup_append.mpr ⟨h.nodup, List.nodup_singleton _, fun a ha b hb heq =>
      hkey (by rw [← List.mem_singleton.mp hb, ← heq]; exact ha)⟩
  find := by
    intro k p
    rw [hfind]
    split_ifs with hk
    · constructor
      · -- the new key: no older entry has it
        intro hp
        exact ⟨entry, by simp, hk.symm, Option.some.inj hp⟩
      · rintro ⟨e, he, hek, rfl⟩
        rcases List.mem_append.mp he with he | he
        · exact absurd (List.mem_map.mpr ⟨e, he, hek.trans hk⟩) hkey
        · rw [List.mem_singleton.mp he]
    · rw [h.find]
      constructor
      · rintro ⟨e, he, hek⟩
        -- any other key: the new entry is not the one found
        exact ⟨e, List.mem_append_left _ he, hek⟩
      · rintro ⟨e, he, hek, hep⟩
        rcases List.mem_append.mp he with he | he
        · exact ⟨e, he, hek, hep⟩
        · exact absurd (List.mem_singleton.mp he ▸ hek).symm hk

/-- Distinct positions of the log point to distinct slots. -/
theorem Holds.items_nodup (h : Holds key item at_ store find log)
    (hat : Function.Injective at_) : (log.map item).Nodup := by
  rw [h.items]
  exact List.nodup_range.map hat

end Holds

/-- Inserting into a map of maps, as `entry(..).or_default().insert(..)` does. -/
theorem nested_lookup_insert {K₁ K₂ V : Type} [DecidableEq K₁] [DecidableEq K₂]
    (m : FastHashMap K₁ (FastHashMap K₂ V)) (a a' : K₁) (b b' : K₂) (v : V) :
    ((m.insert a (((m.lookup a).getD ∅).insert b v)).lookup a').bind (fun n => n.lookup b')
      = if a' = a ∧ b' = b then some v else (m.lookup a').bind (fun n => n.lookup b') := by
  by_cases ha : a' = a
  · subst ha
    rw [AList.lookup_insert, Option.bind_some]
    by_cases hb : b' = b
    · subst hb
      rw [AList.lookup_insert, if_pos ⟨rfl, rfl⟩]
    · rw [AList.lookup_insert_ne hb, if_neg (fun h => hb h.2)]
      cases m.lookup a' <;> simp
  · rw [AList.lookup_insert_ne ha, if_neg (fun h => ha h.1)]

/-! ## Timing shards -/

/-- The policy of the handles a profile's registrations return. -/
def ProfileMeta.policy : ProfileMeta → MetricPolicy
  | .Single _ kind => kind.policy
  | .Resource _ kind => kind.policy
  | .Fanout plan => plan.policy

namespace Shard

/-- The slot at a position of a shard's log. -/
def item_at (id : Fin SHARD_COUNT) (n : ℕ) : ItemPtr :=
  { shard := id, chunk := n / CHUNK_SIZE, offset := n % CHUNK_SIZE }

theorem item_at_injective (id : Fin SHARD_COUNT) : Function.Injective (item_at id) := by
  intro m n h
  simp only [item_at, ItemPtr.mk.injEq, true_and] at h
  rw [← Nat.div_add_mod m CHUNK_SIZE, ← Nat.div_add_mod n CHUNK_SIZE, h.1, h.2]

/-- The three hash maps as one. -/
def find (self : Shard) : TimingKey → Option ItemPtr
  | .named name kind => self.existing name kind
  | .resource kind labels => self.by_resource.lookup (kind, labels)
  | .profile identity policy => self.existing_profile identity policy

/-- The invariant of a timing shard with registration order `log`. -/
structure Inv (s : Shard) (log : List MetricMeta) : Prop where
  holds : Holds (fun m => m.profile.key) MetricMeta.item (item_at s.id) s.store s.find log
  healthy : s.poisoned = false

theorem inv_new (id : Fin SHARD_COUNT) : (new id).Inv [] where
  holds := {
    store := shape_new
    items := rfl
    nodup := List.nodup_nil
    find := by
      intro k p
      cases k <;> simp [find, new, existing, existing_profile] }
  healthy := rfl

/-- `allocate` appends one entry, pointing to the slot next in line, and never panics. -/
theorem allocate_eq {s : Shard} {log : List MetricMeta} (h : s.Inv log)
    (profile : ProfileMeta) (policy : MetricPolicy) :
    allocate profile policy s
      = .ok (Metric.from_item (item_at s.id log.length) policy, item_at s.id log.length)
          (s.on_store (fun store => store.append ⟨item_at s.id log.length, profile⟩)) := by
  have hshape := h.holds.store
  have hlen : s.store.len = log.length := hshape.len
  obtain ⟨hslot, hchunk⟩ := hshape.room_chunk
  have hpublish := hshape.publish_ok ⟨item_at s.id log.length, profile⟩
  simp only [item_at] at hpublish
  by_cases hfresh : s.store.chunks.length ≤ log.length / CHUNK_SIZE
  · simp only [with_room, hlen, if_pos hfresh] at hslot hchunk hpublish
    simp only [allocate, publish, index_vec, bind, EStateM.bind, get, getThe, MonadStateOf.get, EStateM.get,
      modify, modifyGet, MonadStateOf.modifyGet, EStateM.modifyGet, pure, EStateM.pure, hlen, hfresh,
      on_store, hslot, hchunk, hpublish, if_true, Chunks.append, item_at]
  · simp only [with_room, hlen, if_neg hfresh] at hslot hchunk hpublish
    simp only [allocate, publish, index_vec, bind, EStateM.bind, get, getThe, MonadStateOf.get, EStateM.get,
      modify, modifyGet, MonadStateOf.modifyGet, EStateM.modifyGet, pure, EStateM.pure, hlen, hfresh,
      on_store, hslot, hchunk, hpublish, Chunks.append, item_at, if_false]

/-- Registering a profile, through the operation its shape goes through. -/
def enroll (profile : ProfileMeta) : EStateM String Shard Metric :=
  match profile with
  | .Single name kind => register name kind
  | .Resource labels kind => register_resource kind labels
  | .Fanout plan => register_profile plan

/-- Entering a key into the map its shape belongs to. -/
def insert_key (profile : ProfileMeta) (item : ItemPtr) (s : Shard) : Shard :=
  match profile with
  | .Single name kind => { s with
      by_type := s.by_type.insert kind (((s.by_type.lookup kind).getD ∅).insert name item) }
  | .Resource labels kind => { s with by_resource := s.by_resource.insert (kind, labels) item }
  | .Fanout plan => { s with
      by_profile := s.by_profile.insert plan.policy
        (((s.by_profile.lookup plan.policy).getD ∅).insert plan.identity item) }

theorem find_insert_key (profile : ProfileMeta) (item : ItemPtr) (s : Shard) (k : TimingKey) :
    (insert_key profile item s).find k = if k = profile.key then some item else s.find k := by
  cases profile <;> cases k <;>
    simp only [insert_key, find, existing, existing_profile, ProfileMeta.key, nested_lookup_insert,
      TimingKey.named.injEq, TimingKey.resource.injEq, TimingKey.profile.injEq, reduceCtorEq,
      if_false]
  · simp only [and_comm]
  · next labels kind kind' labels' =>
    by_cases hk : (kind', labels') = (kind, labels)
    · rw [hk, AList.lookup_insert, if_pos (by simpa using hk)]
    · rw [AList.lookup_insert_ne hk, if_neg (by simpa using hk)]
  · simp only [and_comm]

@[simp] theorem insert_key_id (profile : ProfileMeta) (item : ItemPtr) (s : Shard) :
    (insert_key profile item s).id = s.id := by
  cases profile <;> rfl

@[simp] theorem insert_key_store (profile : ProfileMeta) (item : ItemPtr) (s : Shard) :
    (insert_key profile item s).store = s.store := by
  cases profile <;> rfl

@[simp] theorem insert_key_poisoned (profile : ProfileMeta) (item : ItemPtr) (s : Shard) :
    (insert_key profile item s).poisoned = s.poisoned := by
  cases profile <;> rfl

/-- A registration returns the slot found under its key, or allocates one and enters the key. -/
theorem enroll_eq {s : Shard} (hp : s.poisoned = false) (profile : ProfileMeta) :
    enroll profile s = match s.find profile.key with
      | some item => .ok (Metric.from_item item profile.policy) s
      | none => match allocate profile profile.policy s with
        | .ok (metric, item) s' => .ok metric (insert_key profile item s')
        | .error e s' => .error e { s' with poisoned := true } := by
  cases profile <;>
    simp only [enroll, register, register_resource, register_profile, lock, with_lock, hp,
      Bool.false_eq_true, if_false, bind, EStateM.bind, get, getThe, MonadStateOf.get, EStateM.get,
      find, ProfileMeta.key, ProfileMeta.policy]
  · next name kind =>
    -- each operation looks up its own map, and only then allocates
    cases s.existing name kind with
    | some item => rfl
    | none =>
      simp only [insert, bind, EStateM.bind]
      cases allocate (.Single name kind) kind.policy s <;> rfl
  · next labels kind =>
    cases AList.lookup (kind, labels) s.by_resource with
    | some item => rfl
    | none =>
      simp only [EStateM.bind]
      cases allocate (.Resource labels kind) kind.policy s <;> rfl
  · next plan =>
    cases s.existing_profile plan.identity plan.policy with
    | some item => rfl
    | none =>
      simp only [insert_profile, bind, EStateM.bind]
      cases allocate (.Fanout plan) plan.policy s <;> rfl

/-- A registration returns the slot of its key, and logs the key if it is new. -/
theorem enroll_spec {s : Shard} {log : List MetricMeta} (h : s.Inv log) (profile : ProfileMeta) :
    ∃ item s', enroll profile s = .ok (Metric.from_item item profile.policy) s'
      ∧ s'.id = s.id
      ∧ s'.Inv (KeyedStore.enroll (fun m => m.profile.key) log
          ⟨item_at s.id log.length, profile⟩)
      ∧ ∃ m ∈ KeyedStore.enroll (fun m => m.profile.key) log ⟨item_at s.id log.length, profile⟩,
          m.profile.key = profile.key ∧ m.item = item := by
  rw [enroll_eq h.healthy]
  cases hfind : s.find profile.key with
  | some item =>
    obtain ⟨m, hm, hkey, hitem⟩ := (h.holds.find _ _).mp hfind
    rw [KeyedStore.enroll_of_mem _ (List.mem_map.mpr ⟨m, hm, hkey⟩)]
    exact ⟨item, s, rfl, rfl, h, m, hm, hkey, hitem⟩
  | none =>
    have hkey := (h.holds.find_eq_none _).mp hfind
    rw [KeyedStore.enroll_of_notMem _ hkey, allocate_eq h]
    refine ⟨item_at s.id log.length, _, rfl, insert_key_id _ _ _, ⟨?_, ?_⟩, _,
      List.mem_append_right _ (List.mem_singleton_self _), rfl, rfl⟩
    · rw [insert_key_id, insert_key_store]
      exact h.holds.append hkey rfl (fun k => find_insert_key _ _ _ k)
    · rw [insert_key_poisoned]
      exact h.healthy

end Shard

/-! ## Scalar shards -/

namespace ScalarShard

/-- The slot at a position of a shard's log. -/
def item_at (id : Fin SHARD_COUNT) (n : ℕ) : ScalarPtr :=
  { shard := id, chunk := n / CHUNK_SIZE, offset := n % CHUNK_SIZE }

theorem item_at_injective (id : Fin SHARD_COUNT) : Function.Injective (item_at id) := by
  intro m n h
  simp only [item_at, ScalarPtr.mk.injEq, true_and] at h
  rw [← Nat.div_add_mod m CHUNK_SIZE, ← Nat.div_add_mod n CHUNK_SIZE, h.1, h.2]

/-- The two hash maps as one. -/
def find (self : ScalarShard) : ScalarKey → Option ScalarPtr
  | .named kind mode name => (self.by_type.lookup (kind, mode)).bind (fun names => names.lookup name)
  | .resource kind mode labels => self.by_resource.lookup (kind, mode, labels)

/-- The invariant of a scalar shard with registration order `log`. -/
structure Inv (s : ScalarShard) (log : List ScalarMeta) : Prop where
  holds : Holds ScalarMeta.key ScalarMeta.item (item_at s.id) s.store s.find log
  healthy : s.poisoned = false

theorem inv_new (id : Fin SHARD_COUNT) : (new id).Inv [] where
  holds := {
    store := shape_new
    items := rfl
    nodup := List.nodup_nil
    find := by
      intro k p
      cases k <;> simp [find, new] }
  healthy := rfl

/-- Entering the key of an entry into the map its shape belongs to. -/
def insert_key (entry : ScalarMeta) (s : ScalarShard) : ScalarShard :=
  match entry.resource with
  | some labels => { s with
      by_resource := s.by_resource.insert (entry.kind, entry.mode, labels) entry.item }
  | none => { s with
      by_type := s.by_type.insert (entry.kind, entry.mode)
        (((s.by_type.lookup (entry.kind, entry.mode)).getD ∅).insert entry.name entry.item) }

theorem find_insert_key (entry : ScalarMeta) (s : ScalarShard) (k : ScalarKey) :
    (insert_key entry s).find k = if k = entry.key then some entry.item else s.find k := by
  obtain ⟨name, resource, kind, mode, item⟩ := entry
  cases resource <;> cases k <;>
    simp only [insert_key, find, ScalarMeta.key, nested_lookup_insert, ScalarKey.named.injEq,
      ScalarKey.resource.injEq, reduceCtorEq, if_false]
  · simp only [Prod.mk.injEq, and_assoc]
  · next labels kind' mode' labels' =>
    by_cases hk : (kind', mode', labels') = (kind, mode, labels)
    · rw [hk, AList.lookup_insert, if_pos (by simpa using hk)]
    · rw [AList.lookup_insert_ne hk, if_neg (by simpa using hk)]

@[simp] theorem insert_key_id (entry : ScalarMeta) (s : ScalarShard) :
    (insert_key entry s).id = s.id := by
  unfold insert_key
  split <;> rfl

@[simp] theorem insert_key_store (entry : ScalarMeta) (s : ScalarShard) :
    (insert_key entry s).store = s.store := by
  unfold insert_key
  split <;> rfl

@[simp] theorem insert_key_poisoned (entry : ScalarMeta) (s : ScalarShard) :
    (insert_key entry s).poisoned = s.poisoned := by
  unfold insert_key
  split <;> rfl

/-- The key a call registers under. -/
def call_key (kind : MetricType) (mode : ScalarKind) (name : String)
    (resource : Option ResourceLabels) : ScalarKey :=
  match resource with
  | some labels => .resource kind mode labels
  | none => .named kind mode name

/-- The entry a call would add at position `n`. -/
def call_entry (id : Fin SHARD_COUNT) (n : ℕ) (kind : MetricType) (mode : ScalarKind)
    (name : String) (resource : Option ResourceLabels) : ScalarMeta :=
  { name := name, resource := resource, kind := kind, mode := mode, item := item_at id n }

/-- A registration of a new key appends one entry and enters the key. It never panics. -/
theorem register_new {s : ScalarShard} {log : List ScalarMeta} (h : s.Inv log) (kind : MetricType)
    (mode : ScalarKind) (name : String) (resource : Option ResourceLabels)
    (hfind : s.find (call_key kind mode name resource) = none) :
    register kind mode name resource s
      = .ok (item_at s.id log.length)
          (insert_key (call_entry s.id log.length kind mode name resource)
            (s.on_store (fun store =>
              store.append (call_entry s.id log.length kind mode name resource)))) := by
  have hshape := h.holds.store
  have hlen : s.store.len = log.length := hshape.len
  obtain ⟨hslot, hchunk⟩ := hshape.room_chunk
  have hpublish := hshape.publish_ok (call_entry s.id log.length kind mode name resource)
  have hp := h.healthy
  simp only [call_entry, item_at] at hpublish
  -- the four runs of the body: with a new chunk or without, with resource labels or without
  by_cases hfresh : s.store.chunks.length ≤ log.length / CHUNK_SIZE <;>
    simp only [with_room, hlen, hfresh, if_true, if_false] at hslot hchunk hpublish <;>
    cases resource <;>
    simp only [find, call_key] at hfind <;>
    simp only [register, with_lock, publish, index_vec, bind, EStateM.bind, get, getThe,
      MonadStateOf.get, EStateM.get, modify, modifyGet, MonadStateOf.modifyGet,
      EStateM.modifyGet, pure, EStateM.pure, hp, hlen, hfresh, hfind, on_store, hslot, hchunk,
      hpublish, Chunks.append, insert_key, call_entry, item_at, Option.map, Bool.false_eq_true,
      if_true, if_false]

/-- A registration of a known key returns its slot and changes nothing. -/
theorem register_known {s : ScalarShard} (hp : s.poisoned = false) {kind : MetricType}
    {mode : ScalarKind} {name : String} {resource : Option ResourceLabels} {item : ScalarPtr}
    (hfind : s.find (call_key kind mode name resource) = some item) :
    register kind mode name resource s = .ok item s := by
  cases resource <;>
    simp only [find, call_key] at hfind <;>
    simp only [register, with_lock, bind, EStateM.bind, get, getThe, MonadStateOf.get, EStateM.get,
      pure, EStateM.pure, hp, hfind, Option.map, Bool.false_eq_true, if_false]

/-- A registration returns the slot of its key, and logs the key if it is new. -/
theorem register_spec {s : ScalarShard} {log : List ScalarMeta} (h : s.Inv log) (kind : MetricType)
    (mode : ScalarKind) (name : String) (resource : Option ResourceLabels) :
    ∃ item s', register kind mode name resource s = .ok item s'
      ∧ s'.id = s.id
      ∧ s'.Inv (enroll ScalarMeta.key log (call_entry s.id log.length kind mode name resource))
      ∧ ∃ m ∈ enroll ScalarMeta.key log (call_entry s.id log.length kind mode name resource),
          m.key = call_key kind mode name resource ∧ m.item = item := by
  have hcall : (call_entry s.id log.length kind mode name resource).key
      = call_key kind mode name resource := by cases resource <;> rfl
  -- what is stored is found again under the key of the call
  cases hfind : s.find (call_key kind mode name resource) with
  | some item =>
    obtain ⟨m, hm, hkey, hitem⟩ := (h.holds.find _ _).mp hfind
    rw [enroll_of_mem _ (List.mem_map.mpr ⟨m, hm, hkey.trans hcall.symm⟩)]
    exact ⟨item, s, register_known h.healthy hfind, rfl, h, m, hm, hkey, hitem⟩
  | none =>
    have hkey := (h.holds.find_eq_none _).mp hfind
    rw [← hcall] at hkey
    rw [enroll_of_notMem _ hkey]
    refine ⟨item_at s.id log.length, _, register_new h kind mode name resource hfind,
      insert_key_id _ _, ⟨?_, ?_⟩, _, List.mem_append_right _ (List.mem_singleton_self _), hcall,
      rfl⟩
    · rw [insert_key_id, insert_key_store]
      exact h.holds.append hkey rfl (fun k => find_insert_key _ _ k)
    · rw [insert_key_poisoned]
      exact h.healthy

end ScalarShard

end BrzMetrics
