/-
A plain keyed store: what a registry is for.

A store maps keys to slots and remembers the value each key was first
registered with. Registering a known key returns its slot and changes nothing;
registering a new key takes a slot that no other key has, whichever that is. So
`Registers` is a relation: which fresh slot a key gets is left open.

`Runs` is a sequence of registrations, each with the slot it returned. Whatever
slots were picked, two calls of a run returned one slot exactly when they had
one key (`Runs.slot_eq_iff`), and the store holds the first call of every key
(`Runs.entries`). Concurrent or sharded implementations refine the store when
each of their calls is a `Registers` step.
-/
import Mathlib

set_option autoImplicit false

namespace BrzMetrics.KeyedStore

/-! ## Shards -/

/-- Replacing a shard together with what is known of it. -/
theorem forall_update_both {ι σ τ : Type} [DecidableEq ι] {P : σ → τ → Prop} {f : ι → σ} {g : ι → τ}
    (h : ∀ i, P (f i) (g i)) {j : ι} {a : σ} {b : τ} (hj : P a b) (i : ι) :
    P (Function.update f j a i) (Function.update g j b i) := by
  by_cases hi : i = j
  · subst hi
    rwa [Function.update_self, Function.update_self]
  · rw [Function.update_of_ne hi, Function.update_of_ne hi]
    exact h i

/-! ## First registration wins -/

section Enroll

variable {T K : Type} [DecidableEq K] (key : T → K)

/-- Extend a log by an entry unless its key is there already. -/
def enroll (log : List T) (entry : T) : List T :=
  if key entry ∈ log.map key then log else log ++ [entry]

theorem enroll_of_mem {log : List T} {entry : T} (h : key entry ∈ log.map key) :
    enroll key log entry = log := if_pos h

theorem enroll_of_notMem {log : List T} {entry : T} (h : key entry ∉ log.map key) :
    enroll key log entry = log ++ [entry] := if_neg h

theorem prefix_enroll (log : List T) (entry : T) : log <+: enroll key log entry := by
  by_cases h : key entry ∈ log.map key
  · rw [enroll_of_mem key h]
  · rw [enroll_of_notMem key h]
    exact List.prefix_append _ _

/-- Enrolling adds the entry's key and no other. -/
theorem mem_keys_enroll (log : List T) (entry : T) (k : K) :
    k ∈ (enroll key log entry).map key ↔ k ∈ log.map key ∨ k = key entry := by
  by_cases h : key entry ∈ log.map key
  · rw [enroll_of_mem key h]
    exact ⟨Or.inl, fun h' => h'.elim id (fun heq => heq ▸ h)⟩
  · rw [enroll_of_notMem key h]
    simp

/-- Enrolling commutes with a map that carries one key to the other. -/
theorem enroll_map {T' K' : Type} [DecidableEq K'] {key' : T' → K'} (f : T → T')
    (hf : ∀ a b, key' (f a) = key' (f b) ↔ key a = key b) (log : List T) (entry : T) :
    (enroll key log entry).map f = enroll key' (log.map f) (f entry) := by
  have hmem : key' (f entry) ∈ (log.map f).map key' ↔ key entry ∈ log.map key := by
    simp only [List.mem_map, exists_exists_and_eq_and, hf]
  by_cases h : key entry ∈ log.map key
  · rw [enroll_of_mem _ h, enroll_of_mem _ (hmem.mpr h)]
  · rw [enroll_of_notMem _ h, enroll_of_notMem _ (fun h' => h (hmem.mp h')), List.map_append,
      List.map_singleton]

/-- The keys of a log are themselves enrolled. -/
theorem map_key_enroll (log : List T) (entry : T) :
    (enroll key log entry).map key = enroll id (log.map key) (key entry) :=
  enroll_map key key (fun _ _ => Iff.rfl) log entry

/-- Enrolling looks at the keys of a log, not at its order. -/
theorem enroll_perm {log log' : List T} (h : log.Perm log') (entry : T) :
    (enroll key log entry).Perm (enroll key log' entry) := by
  by_cases hmem : key entry ∈ log.map key
  · rwa [enroll_of_mem _ hmem, enroll_of_mem _ ((h.map key).mem_iff.mp hmem)]
  · rw [enroll_of_notMem _ hmem, enroll_of_notMem _ (fun h' => hmem ((h.map key).mem_iff.mpr h'))]
    exact h.append_right _

/-- Entries that cannot have the key do not matter. -/
theorem enroll_append {log other : List T} {entry : T} (h : key entry ∉ other.map key) :
    (enroll key log entry ++ other).Perm (enroll key (log ++ other) entry) := by
  by_cases hmem : key entry ∈ log.map key
  · rw [enroll_of_mem _ hmem, enroll_of_mem _ (by
      rw [List.map_append]; exact List.mem_append_left _ hmem)]
  · rw [enroll_of_notMem _ hmem, enroll_of_notMem _ (by
      rw [List.map_append, List.mem_append]; exact fun h' => h'.elim hmem h),
      List.append_assoc, List.append_assoc]
    exact List.perm_append_comm.append_left _

/-- The first entry of every key, in order. -/
def firsts (entries : List T) : List T := entries.foldl (enroll key) []

theorem mem_keys_foldl_enroll (log entries : List T) (k : K) :
    k ∈ (entries.foldl (enroll key) log).map key ↔ k ∈ log.map key ∨ k ∈ entries.map key := by
  induction entries generalizing log with
  | nil => simp
  | cons entry entries ih =>
    rw [List.foldl_cons, ih, mem_keys_enroll, List.map_cons, List.mem_cons, or_assoc]

/-- `firsts` loses no key. -/
theorem mem_keys_firsts (entries : List T) (k : K) :
    k ∈ (firsts key entries).map key ↔ k ∈ entries.map key := by
  rw [firsts, mem_keys_foldl_enroll]
  simp

end Enroll

/-! ## The store -/

/-- A registered key, with the value it was first registered with and its slot. -/
@[ext]
structure Entry (K V S : Type) where
  key : K
  value : V
  slot : S

/-- A keyed store. No key is stored twice, and no two keys share a slot. -/
structure Store (K V S : Type) where
  entries : List (Entry K V S)
  keys_nodup : (entries.map Entry.key).Nodup
  slots_nodup : (entries.map Entry.slot).Nodup

section Store

variable {K V S : Type}

/-- The store without keys. -/
def Store.empty : Store K V S where
  entries := []
  keys_nodup := List.nodup_nil
  slots_nodup := List.nodup_nil

/-- In a store slots tell keys apart, and keys slots. -/
theorem Store.slot_eq_iff (store : Store K V S) {a b : Entry K V S} (ha : a ∈ store.entries)
    (hb : b ∈ store.entries) : a.slot = b.slot ↔ a.key = b.key := by
  constructor
  · intro h
    rw [List.inj_on_of_nodup_map store.slots_nodup ha hb h]
  · intro h
    rw [List.inj_on_of_nodup_map store.keys_nodup ha hb h]

/-- Registering `call.key` with `call.value` returned `call.slot` and left `after`. -/
inductive Registers (before : Store K V S) (call : Entry K V S) (after : Store K V S) : Prop where
  | known (entry : Entry K V S) (hmem : entry ∈ before.entries) (hkey : entry.key = call.key)
      (hslot : entry.slot = call.slot) (hafter : after.entries = before.entries)
  | new (hkey : call.key ∉ before.entries.map Entry.key)
      (hslot : call.slot ∉ before.entries.map Entry.slot)
      (hafter : after.entries = before.entries ++ [call])

/-- The registrations `calls`, one after the other, lead from `before` to `after`. -/
inductive Runs : Store K V S → List (Entry K V S) → Store K V S → Prop where
  | nil (store : Store K V S) : Runs store [] store
  | snoc {before middle after : Store K V S} {calls : List (Entry K V S)} {call : Entry K V S}
      (hcalls : Runs before calls middle) (hcall : Registers middle call after) :
      Runs before (calls ++ [call]) after

/-- A registration enrolls its call. -/
theorem Registers.entries [DecidableEq K] {before after : Store K V S} {call : Entry K V S}
    (h : Registers before call after) :
    after.entries = enroll Entry.key before.entries call := by
  cases h with
  | known entry hmem hkey hslot hafter =>
    rw [hafter, enroll_of_mem _ (List.mem_map.mpr ⟨entry, hmem, hkey⟩)]
  | new hkey hslot hafter => rw [hafter, enroll_of_notMem _ hkey]

/-- The slot a registration returns is stored under its key. -/
theorem Registers.stored {before after : Store K V S} {call : Entry K V S}
    (h : Registers before call after) :
    ∃ entry ∈ after.entries, entry.key = call.key ∧ entry.slot = call.slot := by
  cases h with
  | known entry hmem hkey hslot hafter => exact ⟨entry, hafter ▸ hmem, hkey, hslot⟩
  | new hkey hslot hafter => exact ⟨call, by simp [hafter], rfl, rfl⟩

/-- Entries are never removed or replaced. -/
theorem Registers.grows {before after : Store K V S} {call : Entry K V S}
    (h : Registers before call after) : before.entries <+: after.entries := by
  cases h with
  | known _ _ _ _ hafter => rw [hafter]
  | new _ _ hafter => rw [hafter]; exact List.prefix_append _ _

/-- What an implementation lists before and after a call is a step of the store, if the call was
enrolled, is listed with the slot it returned, and slots are not shared. -/
theorem exists_registers [DecidableEq K] {before : Store K V S} {call : Entry K V S}
    {listed listed' : List (Entry K V S)} (hbefore : listed.Perm before.entries)
    (hafter : listed'.Perm (enroll Entry.key listed call))
    (hstored : ∃ entry ∈ listed', entry.key = call.key ∧ entry.slot = call.slot)
    (hslots : (listed'.map Entry.slot).Nodup) :
    ∃ after, Registers before call after ∧ listed'.Perm after.entries := by
  by_cases hkey : call.key ∈ listed.map Entry.key
  · -- a known key: nothing is added, and its entry is the one listed
    rw [enroll_of_mem _ hkey] at hafter
    obtain ⟨entry, hentry, hkeys⟩ := hstored
    refine ⟨before, .known entry ?_ hkeys.1 hkeys.2 rfl, hafter.trans hbefore⟩
    exact hbefore.mem_iff.mp (hafter.mem_iff.mp hentry)
  · -- a new key: that its slot is new too follows from the slots being distinct afterwards
    rw [enroll_of_notMem _ hkey] at hafter
    have hkey' : call.key ∉ before.entries.map Entry.key :=
      fun h => hkey ((hbefore.map Entry.key).mem_iff.mpr h)
    have hentries : listed'.Perm (before.entries ++ [call]) :=
      hafter.trans (hbefore.append_right _)
    have hslots' : ((before.entries ++ [call]).map Entry.slot).Nodup :=
      (hentries.map Entry.slot).nodup_iff.mp hslots
    have hslot : call.slot ∉ before.entries.map Entry.slot := by
      rw [List.map_append, List.map_singleton] at hslots'
      exact fun h => List.disjoint_of_nodup_append hslots' h (List.mem_singleton_self _)
    have hkeys' : ((before.entries ++ [call]).map Entry.key).Nodup := by
      rw [List.map_append, List.map_singleton]
      exact before.keys_nodup.append (List.nodup_singleton _)
        (List.disjoint_singleton.mpr hkey')
    exact ⟨⟨before.entries ++ [call], hkeys', hslots'⟩, .new hkey' hslot rfl, hentries⟩

variable {before after : Store K V S} {calls : List (Entry K V S)}

/-- A run stores the first call of every key. -/
theorem Runs.entries [DecidableEq K] (h : Runs Store.empty calls after) :
    after.entries = firsts Entry.key calls := by
  induction h with
  | nil => rfl
  | snoc _ hcall ih =>
    rw [hcall.entries, ih, firsts, firsts, List.foldl_append]
    rfl

/-- Every slot a run returned is still stored under the key it was returned for. -/
theorem Runs.stored (h : Runs before calls after) :
    ∀ call ∈ calls, ∃ entry ∈ after.entries, entry.key = call.key ∧ entry.slot = call.slot := by
  induction h with
  | nil => exact fun _ h => absurd h List.not_mem_nil
  | snoc _ hcall ih =>
    intro call hmem
    rcases List.mem_append.mp hmem with hmem | hmem
    · obtain ⟨entry, hentry, hkeys⟩ := ih call hmem
      exact ⟨entry, hcall.grows.mem hentry, hkeys⟩
    · rw [List.mem_singleton.mp hmem]
      exact hcall.stored

/-- A run from the empty store stores nothing but its calls. -/
theorem Runs.origin (h : Runs Store.empty calls after) : ∀ entry ∈ after.entries, entry ∈ calls := by
  induction h with
  | nil => exact fun entry hentry => absurd hentry List.not_mem_nil
  | snoc _ hcall ih =>
    intro entry hentry
    cases hcall with
    | known _ _ _ _ hafter => exact List.mem_append_left _ (ih entry (hafter ▸ hentry))
    | new _ _ hafter =>
      rw [hafter] at hentry
      rcases List.mem_append.mp hentry with hentry | hentry
      · exact List.mem_append_left _ (ih entry hentry)
      · exact List.mem_append_right _ hentry

/-- Two calls of a run returned the same slot exactly when they had the same key. -/
theorem Runs.slot_eq_iff (h : Runs before calls after) {a b : Entry K V S} (ha : a ∈ calls)
    (hb : b ∈ calls) : a.slot = b.slot ↔ a.key = b.key := by
  obtain ⟨entry, hentry, hkey, hslot⟩ := h.stored a ha
  obtain ⟨entry', hentry', hkey', hslot'⟩ := h.stored b hb
  rw [← hkey, ← hslot, ← hkey', ← hslot']
  exact after.slot_eq_iff hentry hentry'

/-- A run stores as many entries as it had different keys. -/
theorem Runs.length [DecidableEq K] (h : Runs Store.empty calls after) :
    after.entries.length = (calls.map Entry.key).toFinset.card := by
  have hkeys : (after.entries.map Entry.key).toFinset = (calls.map Entry.key).toFinset := by
    ext k
    rw [List.mem_toFinset, List.mem_toFinset, h.entries, mem_keys_firsts]
  rw [← hkeys, List.toFinset_card_of_nodup after.keys_nodup, List.length_map]

end Store

end BrzMetrics.KeyedStore
