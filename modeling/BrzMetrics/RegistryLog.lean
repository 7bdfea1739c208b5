/-
What a registration does to the registry.

Every shard has its own log (`ShardInv`), and a key always goes to the same
shard. So the logs of all shards together, `flat`, behave as one log with
distinct keys, whatever the hash functions are: registering enrolls the new
entry in the flat log up to the order of its entries, `for_each_meta` lists the
flat log, and no two of its entries share a slot.
-/
import BrzMetrics.ShardInv

set_option autoImplicit false

namespace BrzMetrics

open ChunkLog Chunks KeyedStore

/-! ## One log out of many -/

section Flat

variable {n : ℕ} {T K : Type}

/-- The logs of all shards, shard after shard. -/
def flat (logs : Fin n → List T) : List T := (List.finRange n).flatMap logs

theorem mem_flat {logs : Fin n → List T} {entry : T} :
    entry ∈ flat logs ↔ ∃ i, entry ∈ logs i := by
  simp [flat]

theorem flatMap_update_append {ι : Type} [DecidableEq ι] (logs : ι → List T) (i : ι) (entry : T) :
    ∀ {l : List ι}, l.Nodup → i ∈ l →
      (l.flatMap (Function.update logs i (logs i ++ [entry]))).Perm (l.flatMap logs ++ [entry])
  | [], _, hi => absurd hi (List.not_mem_nil)
  | j :: l, hl, hi => by
      obtain ⟨hj, hl⟩ := List.nodup_cons.mp hl
      rw [List.flatMap_cons, List.flatMap_cons]
      by_cases hij : i = j
      · subst hij
        -- the updated log occurs once in the list, so it is not among the rest
        have hrest : l.flatMap (Function.update logs i (logs i ++ [entry])) = l.flatMap logs :=
          List.flatMap_congr (fun k hk => Function.update_of_ne (fun h : k = i => hj (h ▸ hk)) _ _)
        rw [Function.update_self, hrest, List.append_assoc, List.append_assoc]
        exact (List.perm_append_comm).append_left _
      · have hil : i ∈ l := (List.mem_cons.mp hi).resolve_left hij
        rw [Function.update_of_ne (Ne.symm hij), List.append_assoc]
        exact (flatMap_update_append logs i entry hl hil).append_left _

/-- Appending to one log appends to the flat log, up to order. -/
theorem flat_update_append (logs : Fin n → List T) (i : Fin n) (entry : T) :
    (flat (Function.update logs i (logs i ++ [entry]))).Perm (flat logs ++ [entry]) :=
  flatMap_update_append logs i entry (List.nodup_finRange n) (List.mem_finRange i)

/-- Every entry lies in the log its key is routed to. -/
def Routed (key : T → K) (route : K → Fin n) (logs : Fin n → List T) : Prop :=
  ∀ i, ∀ entry ∈ logs i, route (key entry) = i

variable {key : T → K} {route : K → Fin n} {logs : Fin n → List T}

/-- A key that is logged anywhere is logged where it is routed. -/
theorem Routed.mem_keys_iff (h : Routed key route logs) (k : K) :
    k ∈ (flat logs).map key ↔ k ∈ (logs (route k)).map key := by
  constructor
  · intro hk
    obtain ⟨entry, hentry, rfl⟩ := List.mem_map.mp hk
    obtain ⟨i, hi⟩ := mem_flat.mp hentry
    rw [h i entry hi]
    exact List.mem_map_of_mem hi
  · intro hk
    obtain ⟨entry, hentry, hkey⟩ := List.mem_map.mp hk
    exact List.mem_map.mpr ⟨entry, mem_flat.mpr ⟨_, hentry⟩, hkey⟩

/-- Enrolling an entry where its key is routed. -/
theorem Routed.enroll [DecidableEq K] (h : Routed key route logs) (entry : T) :
    Routed key route (Function.update logs (route (key entry))
      (KeyedStore.enroll key (logs (route (key entry))) entry)) := by
  intro i e he
  by_cases hi : i = route (key entry)
  · subst hi
    rw [Function.update_self] at he
    by_cases hmem : key entry ∈ (logs (route (key entry))).map key
    · rw [enroll_of_mem _ hmem] at he
      exact h _ e he
    · rw [enroll_of_notMem _ hmem] at he
      rcases List.mem_append.mp he with he | he
      · exact h _ e he
      · rw [List.mem_singleton.mp he]
  · rw [Function.update_of_ne hi] at he
    exact h i e he

/-- Enrolling in one log enrolls in the flat log, up to order. -/
theorem Routed.flat_enroll [DecidableEq K] (h : Routed key route logs) (entry : T) :
    (flat (Function.update logs (route (key entry))
      (KeyedStore.enroll key (logs (route (key entry))) entry))).Perm
      (KeyedStore.enroll key (flat logs) entry) := by
  by_cases hmem : key entry ∈ (logs (route (key entry))).map key
  · rw [enroll_of_mem _ hmem, enroll_of_mem _ ((h.mem_keys_iff _).mpr hmem), Function.update_eq_self]
  · rw [enroll_of_notMem _ hmem, enroll_of_notMem _ (fun h' => hmem ((h.mem_keys_iff _).mp h'))]
    exact flat_update_append logs _ entry

/-- A property that separates entries within each log and across logs separates the flat log. -/
theorem flat_map_nodup {β : Type} {f : T → β} (hin : ∀ i, ((logs i).map f).Nodup)
    (hacross : ∀ i j, ∀ a ∈ logs i, ∀ b ∈ logs j, f a = f b → i = j) :
    ((flat logs).map f).Nodup := by
  rw [flat, List.map_flatMap]
  refine List.nodup_flatMap.mpr ⟨fun i _ => hin i, ?_⟩
  refine (List.nodup_finRange n).imp (fun {i j} hij => ?_)
  intro b hb hb'
  obtain ⟨a, ha, rfl⟩ := List.mem_map.mp hb
  obtain ⟨a', ha', heq⟩ := List.mem_map.mp hb'
  exact hij (hacross i j a ha a' ha' heq.symm)

/-- No key occurs twice in the flat log. -/
theorem Routed.keys_nodup (h : Routed key route logs) (hin : ∀ i, ((logs i).map key).Nodup) :
    ((flat logs).map key).Nodup :=
  flat_map_nodup hin (fun i j a ha b hb heq => by rw [← h i a ha, ← h j b hb, heq])

end Flat

/-! ## The invariant of the registry -/

/-- Where a timing key goes. -/
def Registry.route (r : Registry) (k : TimingKey) : Fin SHARD_COUNT :=
  select_shard (r.shard_hasher.hash_one k)

/-- Where a scalar key goes. -/
def ScalarRegistry.route (r : ScalarRegistry) (k : ScalarKey) : Fin SHARD_COUNT :=
  select_shard (r.hasher.hash_one k)

/-- The invariant of the scalar registry, whose shards have registration orders `logs`. -/
structure ScalarRegistry.Inv (r : ScalarRegistry) (logs : Fin SHARD_COUNT → List ScalarMeta) :
    Prop where
  ids : ∀ i, (r.shards i).id = i
  shards : ∀ i, (r.shards i).Inv (logs i)
  routed : Routed ScalarMeta.key r.route logs

/-- The key of a timing entry. -/
def MetricMeta.key (self : MetricMeta) : TimingKey := self.profile.key

/-- The invariant of the registry, whose timing shards have registration orders `logs` and
whose scalar shards have registration orders `scalars`. -/
structure Registry.Inv (r : Registry) (logs : Fin SHARD_COUNT → List MetricMeta)
    (scalars : Fin SHARD_COUNT → List ScalarMeta) : Prop where
  ids : ∀ i, (r.shards i).id = i
  shards : ∀ i, (r.shards i).Inv (logs i)
  routed : Routed MetricMeta.key r.route logs
  scalars : r.scalars.Inv scalars

/-- The states are kept beside the shards. -/
theorem Registry.Inv.with_states {r : Registry} {logs : Fin SHARD_COUNT → List MetricMeta}
    {scalars : Fin SHARD_COUNT → List ScalarMeta} (h : r.Inv logs scalars)
    (states : StateRegistry) : Registry.Inv { r with states := states } logs scalars :=
  ⟨h.ids, h.shards, h.routed, h.scalars⟩

theorem ScalarRegistry.inv_new (hasher : RandomState ScalarKey) :
    (ScalarRegistry.new hasher).Inv (fun _ => []) where
  ids := fun _ => rfl
  shards := ScalarShard.inv_new
  routed := fun _ _ h => absurd h (List.not_mem_nil)

theorem Registry.inv_new (shard_hasher : RandomState TimingKey)
    (scalar_hasher : RandomState ScalarKey) :
    (Registry.new shard_hasher scalar_hasher).Inv (fun _ => []) (fun _ => []) where
  ids := fun _ => rfl
  shards := Shard.inv_new
  routed := fun _ _ h => absurd h (List.not_mem_nil)
  scalars := ScalarRegistry.inv_new scalar_hasher

section Invariant

variable {r : Registry} {logs : Fin SHARD_COUNT → List MetricMeta}
  {scalars : Fin SHARD_COUNT → List ScalarMeta}

/-- `for_each` lists the flat log. -/
theorem ScalarRegistry.Inv.for_each {r : ScalarRegistry} (h : r.Inv scalars) :
    r.for_each = some (flat scalars) := by
  have hshard : ∀ i ∈ List.finRange SHARD_COUNT, (r.shards i).store.for_each = some (scalars i) :=
    fun i _ => (h.shards i).holds.store.for_each
  rw [ScalarRegistry.for_each, mapM_eq_some hshard]
  rfl

/-- `for_each_meta` lists the flat log. -/
theorem Registry.Inv.for_each_meta (h : r.Inv logs scalars) :
    r.for_each_meta = some (flat logs) := by
  have hshard : ∀ i ∈ List.finRange SHARD_COUNT, (r.shards i).store.for_each = some (logs i) :=
    fun i _ => (h.shards i).holds.store.for_each
  rw [Registry.for_each_meta, mapM_eq_some hshard]
  rfl

/-- `len` counts the entries of both flat logs. -/
theorem Registry.Inv.len (h : r.Inv logs scalars) :
    r.len = (flat logs).length + (flat scalars).length := by
  have hshard : ∀ i, (r.shards i).store.published_len = (logs i).length :=
    fun i => (h.shards i).holds.store.published_len
  have hscalar : ∀ i, (r.scalars.shards i).store.published_len = (scalars i).length :=
    fun i => (h.scalars.shards i).holds.store.published_len
  rw [Registry.len, ScalarRegistry.len, flat, flat, List.length_flatMap, List.length_flatMap]
  simp only [hshard, hscalar]
  omega

theorem Registry.Inv.keys_nodup (h : r.Inv logs scalars) :
    ((flat logs).map MetricMeta.key).Nodup :=
  h.routed.keys_nodup (fun i => (h.shards i).holds.nodup)

theorem ScalarRegistry.Inv.keys_nodup {r : ScalarRegistry} (h : r.Inv scalars) :
    ((flat scalars).map ScalarMeta.key).Nodup :=
  h.routed.keys_nodup (fun i => (h.shards i).holds.nodup)

/-- No two timing entries share a slot. -/
theorem Registry.Inv.items_nodup (h : r.Inv logs scalars) :
    ((flat logs).map MetricMeta.item).Nodup := by
  have hitem : ∀ i, ∀ a ∈ logs i, a.item.shard = i := by
    intro i a ha
    have hmem : a.item ∈ (logs i).map MetricMeta.item := List.mem_map_of_mem ha
    rw [(h.shards i).holds.items] at hmem
    obtain ⟨k, -, hk⟩ := List.mem_map.mp hmem
    rw [← hk]
    exact h.ids i
  refine flat_map_nodup (fun i => (h.shards i).holds.items_nodup (Shard.item_at_injective _)) ?_
  intro i j a ha b hb heq
  rw [← hitem i a ha, ← hitem j b hb, heq]

/-- No two scalar entries share a slot. -/
theorem ScalarRegistry.Inv.items_nodup {r : ScalarRegistry} (h : r.Inv scalars) :
    ((flat scalars).map ScalarMeta.item).Nodup := by
  have hitem : ∀ i, ∀ a ∈ scalars i, a.item.shard = i := by
    intro i a ha
    have hmem : a.item ∈ (scalars i).map ScalarMeta.item := List.mem_map_of_mem ha
    rw [(h.shards i).holds.items] at hmem
    obtain ⟨k, -, hk⟩ := List.mem_map.mp hmem
    rw [← hk]
    exact h.ids i
  refine flat_map_nodup
    (fun i => (h.shards i).holds.items_nodup (ScalarShard.item_at_injective _)) ?_
  intro i j a ha b hb heq
  rw [← hitem i a ha, ← hitem j b hb, heq]

end Invariant

/-! ## Registration -/

/-- Registering a profile, through the operation its shape goes through. -/
def Registry.enroll (profile : ProfileMeta) : EStateM String Registry Metric :=
  match profile with
  | .Single name kind => Registry.register name kind
  | .Resource labels kind => Registry.register_resource kind labels
  | .Fanout plan => Registry.register_profile plan

/-- All three paths run the shard operation on the shard the key is routed to. -/
theorem Registry.enroll_eq (profile : ProfileMeta) (r : Registry) :
    Registry.enroll profile r
      = Registry.on_shard (r.route profile.key) (Shard.enroll profile) r := by
  cases profile <;> rfl

/-- A log extended by an enrolled entry holds that entry's key only there, so whatever is
found under the key may stand for it. -/
theorem enroll_congr {T K : Type} [DecidableEq K] {key : T → K} {log : List T} {entry m : T}
    (entry' : T) (hm : m ∈ enroll key log entry) (hkey : key m = key entry) (hkey' : key entry' = key entry)
    (hsame : m = entry → entry' = entry) : enroll key log entry = enroll key log entry' := by
  by_cases h : key entry ∈ log.map key
  · rw [enroll_of_mem _ h, enroll_of_mem _ (hkey' ▸ h)]
  · rw [enroll_of_notMem _ h] at hm
    rcases List.mem_append.mp hm with hm | hm
    · exact absurd (hkey ▸ List.mem_map_of_mem hm) h
    · rw [hsame (List.mem_singleton.mp hm)]

/-- A timing registration enrolls an entry in the flat log and returns the slot of its key. -/
theorem Registry.enroll_spec {r : Registry} {logs : Fin SHARD_COUNT → List MetricMeta}
    {scalars : Fin SHARD_COUNT → List ScalarMeta} (h : r.Inv logs scalars)
    (profile : ProfileMeta) :
    ∃ item r' logs', Registry.enroll profile r = .ok (Metric.from_item item profile.policy) r'
      ∧ r'.Inv logs' scalars
      ∧ (flat logs').Perm (KeyedStore.enroll MetricMeta.key (flat logs) ⟨item, profile⟩)
      ∧ (∃ m ∈ flat logs', m.key = profile.key ∧ m.item = item)
      ∧ r'.states = r.states ∧ r'.scalars = r.scalars := by
  obtain ⟨item, s', hok, hid, hinv, m, hm, hkey, hitem⟩ :=
    Shard.enroll_spec (h.shards (r.route profile.key)) profile
  -- for a known key the entry that is enrolled anew is not stored, so its slot does not matter
  have hentry := enroll_congr ⟨item, profile⟩ hm hkey rfl
    (fun heq => by rw [← hitem, heq])
  rw [hentry] at hinv hm
  refine ⟨item, { r with shards := Function.update r.shards (r.route profile.key) s' },
    Function.update logs (r.route profile.key) (KeyedStore.enroll MetricMeta.key (logs (r.route profile.key))
      ⟨item, profile⟩),
    by rw [Registry.enroll_eq, Registry.on_shard, hok], ⟨?_, ?_, ?_, h.scalars⟩,
    h.routed.flat_enroll ⟨item, profile⟩, ?_, rfl, rfl⟩
  · exact (Function.forall_update_iff r.shards (fun i s => s.id = i)).mpr
      ⟨hid.trans (h.ids _), fun i _ => h.ids i⟩
  · exact forall_update_both h.shards hinv
  · exact h.routed.enroll ⟨item, profile⟩
  · refine ⟨m, mem_flat.mpr ⟨r.route profile.key, ?_⟩, hkey, hitem⟩
    rw [Function.update_self]
    exact hm

/-- A scalar registration of either kind. -/
def ScalarRegistry.enroll (kind : MetricType) (mode : ScalarKind) (name : String)
    (resource : Option ResourceLabels) : EStateM String ScalarRegistry ScalarPtr :=
  match resource with
  | none => ScalarRegistry.register kind mode name
  | some labels => ScalarRegistry.register_resource kind mode labels

/-- The name an entry carries: that of the resource labels, if there are any. -/
def entry_name (name : String) (resource : Option ResourceLabels) : String :=
  match resource with
  | none => name
  | some labels => labels.name

/-- A rejected kind panics before any shard is touched. -/
theorem ScalarRegistry.enroll_rejected {r : ScalarRegistry} {kind : MetricType} {message : String}
    (hkind : kind.validate = .error message) (mode : ScalarKind) (name : String)
    (resource : Option ResourceLabels) :
    ScalarRegistry.enroll kind mode name resource r = .error message r := by
  cases resource <;>
    simp only [ScalarRegistry.enroll, ScalarRegistry.register, ScalarRegistry.register_resource,
      ScalarRegistry.validate, hkind, bind, EStateM.bind, throw, throwThe, MonadExceptOf.throw,
      EStateM.throw]

/-- An accepted kind runs the shard operation on the shard the key is routed to. -/
theorem ScalarRegistry.enroll_eq {r : ScalarRegistry} {kind : MetricType}
    (hkind : kind.validate = .ok ()) (mode : ScalarKind) (name : String)
    (resource : Option ResourceLabels) :
    ScalarRegistry.enroll kind mode name resource r
      = ScalarRegistry.on_shard (r.route (ScalarShard.call_key kind mode name resource))
          (ScalarShard.register kind mode (entry_name name resource) resource) r := by
  cases resource <;>
    simp only [ScalarRegistry.enroll, ScalarRegistry.register, ScalarRegistry.register_resource,
      ScalarRegistry.validate, hkind, bind, EStateM.bind, pure, EStateM.pure, get, getThe,
      MonadStateOf.get, EStateM.get, ScalarRegistry.route, ScalarShard.call_key, entry_name]

/-- An accepted scalar registration enrolls an entry in the log its key is routed to, and so in the
flat log, and returns the slot of its key. -/
theorem ScalarRegistry.enroll_spec {r : ScalarRegistry}
    {logs : Fin SHARD_COUNT → List ScalarMeta} (h : r.Inv logs) {kind : MetricType}
    (hkind : kind.validate = .ok ()) (mode : ScalarKind) (name : String)
    (resource : Option ResourceLabels) :
    ∃ item r' logs', ScalarRegistry.enroll kind mode name resource r = .ok item r'
      ∧ r'.Inv logs' ∧ r'.hasher = r.hasher
      ∧ logs' = Function.update logs (r.route (ScalarShard.call_key kind mode name resource))
          (KeyedStore.enroll ScalarMeta.key
            (logs (r.route (ScalarShard.call_key kind mode name resource)))
            ⟨entry_name name resource, resource, kind, mode, item⟩)
      ∧ (flat logs').Perm (KeyedStore.enroll ScalarMeta.key (flat logs)
          ⟨entry_name name resource, resource, kind, mode, item⟩)
      ∧ (∃ m ∈ flat logs', m.key = ScalarShard.call_key kind mode name resource ∧ m.item = item)
      := by
  -- resource labels replace the name, in the entry as well as in the key
  have hcall : ScalarShard.call_key kind mode (entry_name name resource) resource
      = ScalarShard.call_key kind mode name resource := by cases resource <;> rfl
  have hkeys : ∀ item, (ScalarMeta.mk (entry_name name resource) resource kind mode item).key
      = ScalarShard.call_key kind mode name resource := by intro item; cases resource <;> rfl
  obtain ⟨item, s', hok, hid, hinv, m, hm, hkey, hitem⟩ :=
    ScalarShard.register_spec (h.shards (r.route (ScalarShard.call_key kind mode name resource)))
      kind mode (entry_name name resource) resource
  have hentry := enroll_congr
    (ScalarMeta.mk (entry_name name resource) resource kind mode item) hm
    (hkey.trans (hcall.trans (hkeys _).symm)) ((hkeys _).trans (hkeys _).symm)
    (fun heq => by rw [← hitem, heq]; rfl)
  rw [hentry] at hinv hm
  have hflat := h.routed.flat_enroll
    (ScalarMeta.mk (entry_name name resource) resource kind mode item)
  have hrouted := h.routed.enroll
    (ScalarMeta.mk (entry_name name resource) resource kind mode item)
  rw [hkeys] at hflat hrouted
  refine ⟨item,
    { r with
      shards := Function.update r.shards
        (r.route (ScalarShard.call_key kind mode name resource)) s' }, _,
    by rw [ScalarRegistry.enroll_eq hkind, ScalarRegistry.on_shard, hok], ⟨?_, ?_, hrouted⟩,
    rfl, rfl, hflat, ?_⟩
  · exact (Function.forall_update_iff r.shards (fun i s => s.id = i)).mpr
      ⟨hid.trans (h.ids _), fun i _ => h.ids i⟩
  · exact forall_update_both h.shards hinv
  · refine ⟨m, mem_flat.mpr ⟨r.route (ScalarShard.call_key kind mode name resource), ?_⟩,
      hkey.trans hcall, hitem⟩
    rw [Function.update_self]
    exact hm

end BrzMetrics
