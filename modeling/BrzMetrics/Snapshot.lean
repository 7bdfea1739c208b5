/-
What the RPC state store holds and how it is captured.

The store is a map from names to maps of fields, but all that can be seen of it
is which value a field has (`StateRegistry.get`) and which states there are.
Recording is an update of that function (`get_record`), the early return for an
unchanged value included. A snapshot lists the states and their fields in strict
order of their bytes, so it does not depend on the order in which the hash maps
happen to be iterated.
-/
import BrzMetrics.State

set_option autoImplicit false

namespace BrzMetrics

open SortBy

/-! ## Maps -/

namespace FastHashMap

variable {K V : Type}

theorem mem_pairs [DecidableEq K] {m : FastHashMap K V} {k : K} {v : V} :
    (k, v) ∈ m.pairs ↔ m.lookup k = some v := by
  rw [pairs, List.mem_map, ← Option.mem_def, AList.mem_lookup_iff]
  constructor
  · rintro ⟨⟨k', v'⟩, hmem, heq⟩
    obtain ⟨rfl, rfl⟩ := Prod.mk.inj heq
    exact hmem
  · exact fun h => ⟨_, h, rfl⟩

/-- A key has one entry. -/
theorem pairs_keys_nodup (m : FastHashMap K V) : (m.pairs.map Prod.fst).Nodup := by
  have hkeys : m.pairs.map Prod.fst = m.keys := by
    rw [pairs, List.map_map, AList.keys, List.keys]
    rfl
  rw [hkeys]
  exact m.keys_nodup

end FastHashMap

/-! ## Recording -/

namespace StateRegistry

/-- The states that were ever recorded. -/
def recorded (self : StateRegistry) (identity : StateIdentity) : Prop :=
  ∃ fields, self.states.lookup identity = some fields

@[simp] theorem get_default (identity : StateIdentity) (key : String) :
    StateRegistry.default.get identity key = none := by
  simp [default, get]

theorem not_recorded_default (identity : StateIdentity) :
    ¬ StateRegistry.default.recorded identity := by
  simp [default, recorded]

/-- The fields recorded for a state so far, empty before the first. -/
theorem lookup_getD (self : StateRegistry) (identity : StateIdentity) (key : String) :
    ((self.states.lookup identity).getD ∅).lookup key = self.get identity key := by
  rw [get]
  cases self.states.lookup identity with
  | none => simp
  | some fields => rfl

/-- Recording puts a map under its state that differs from what was there in one field. The early
return is taken when the field has the value already. -/
theorem exists_record_eq (self : StateRegistry) (state_type : StateType)
    (name key value : String) :
    ∃ fields : StateFields,
      self.record state_type name key value
        = { states := self.states.insert ⟨state_type, name⟩ fields }
      ∧ ∀ k, fields.lookup k
          = if k = key then some value else self.get ⟨state_type, name⟩ k := by
  by_cases hsame : ((self.states.lookup ⟨state_type, name⟩).getD ∅).lookup key = some value
  · refine ⟨(self.states.lookup ⟨state_type, name⟩).getD ∅, by rw [record, if_pos hsame], ?_⟩
    intro k
    by_cases hk : k = key
    · rw [if_pos hk, hk, hsame]
    · rw [if_neg hk, lookup_getD]
  · refine ⟨((self.states.lookup ⟨state_type, name⟩).getD ∅).insert key value,
      by rw [record, if_neg hsame], ?_⟩
    intro k
    by_cases hk : k = key
    · rw [if_pos hk, hk, AList.lookup_insert]
    · rw [if_neg hk, AList.lookup_insert_ne hk, lookup_getD]

/-- Recording updates the value of one field. -/
theorem get_record (self : StateRegistry) (state_type : StateType) (name key value : String)
    (identity : StateIdentity) (k : String) :
    (self.record state_type name key value).get identity k
      = if identity = ⟨state_type, name⟩ ∧ k = key then some value else self.get identity k := by
  obtain ⟨fields, hrecord, hfields⟩ := self.exists_record_eq state_type name key value
  rw [hrecord]
  by_cases hidentity : identity = ⟨state_type, name⟩
  · subst hidentity
    simp only [get, AList.lookup_insert, Option.bind_some, true_and]
    exact hfields k
  · rw [if_neg (fun h => hidentity h.1), get, AList.lookup_insert_ne hidentity]
    rfl

/-- Recording records the state, and no other. -/
theorem recorded_record (self : StateRegistry) (state_type : StateType) (name key value : String)
    (identity : StateIdentity) :
    (self.record state_type name key value).recorded identity
      ↔ identity = ⟨state_type, name⟩ ∨ self.recorded identity := by
  obtain ⟨fields, hrecord, -⟩ := self.exists_record_eq state_type name key value
  rw [hrecord]
  by_cases hidentity : identity = ⟨state_type, name⟩
  · subst hidentity
    exact iff_of_true ⟨fields, AList.lookup_insert _⟩ (.inl rfl)
  · rw [recorded, AList.lookup_insert_ne hidentity, or_iff_right hidentity]
    rfl

/-! ## Snapshots -/

/-- The fields of a captured state: what was recorded for it, in the order of the keys. -/
theorem fields_spec (order : IterOrder) (identity : StateIdentity) (fields : StateFields) :
    (sort_by (fun f => byte_rank f.1) (order.fields identity fields)).Pairwise
        (fun a b => byte_rank a.1 < byte_rank b.1)
      ∧ ∀ key value, (key, value) ∈ sort_by (fun f => byte_rank f.1) (order.fields identity fields)
          ↔ fields.lookup key = some value := by
  have hperm := order.fields_perm identity fields
  constructor
  · refine sort_by_pairwise_lt ?_
    have hkeys : ((order.fields identity fields).map Prod.fst).Nodup :=
      (hperm.map Prod.fst).nodup_iff.mpr fields.pairs_keys_nodup
    have hrank : (order.fields identity fields).map (fun f => byte_rank f.1)
        = ((order.fields identity fields).map Prod.fst).map byte_rank := by
      rw [List.map_map]
      rfl
    rw [hrank]
    exact hkeys.map byte_rank_injective
  · intro key value
    rw [mem_sort_by, hperm.mem_iff, FastHashMap.mem_pairs]

/-- The states a snapshot lists. -/
theorem mem_snapshot (self : StateRegistry) (order : IterOrder) (s : StateSnapshot) :
    s ∈ self.snapshot order
      ↔ ∃ fields, self.states.lookup ⟨s.state_type, s.name⟩ = some fields
        ∧ s.fields = sort_by (fun f => byte_rank f.1)
            (order.fields ⟨s.state_type, s.name⟩ fields) := by
  simp only [snapshot, List.mem_map, mem_sort_by, Prod.exists]
  constructor
  · rintro ⟨_, ⟨identity, fields, hmem, rfl⟩, rfl⟩
    exact ⟨fields, FastHashMap.mem_pairs.mp ((order.states_perm _).mem_iff.mp hmem), rfl⟩
  · rintro ⟨fields, hlookup, hfields⟩
    refine ⟨_, ⟨⟨s.state_type, s.name⟩, fields,
      (order.states_perm _).mem_iff.mpr (FastHashMap.mem_pairs.mpr hlookup), rfl⟩, ?_⟩
    rw [← hfields]

/-- A snapshot is in strict order of types and names. -/
theorem snapshot_pairwise (self : StateRegistry) (order : IterOrder) :
    (self.snapshot order).Pairwise (fun a b =>
      toLex (byte_rank a.state_type.metric_type, byte_rank a.name)
        < toLex (byte_rank b.state_type.metric_type, byte_rank b.name)) := by
  rw [snapshot, List.pairwise_map]
  refine sort_by_pairwise_lt ?_
  have hidentities : ((order.states self.states).map Prod.fst).Nodup :=
    ((order.states_perm _).map Prod.fst).nodup_iff.mpr self.states.pairs_keys_nodup
  have hinj : Function.Injective (fun identity : StateIdentity =>
      toLex (byte_rank identity.state_type.metric_type, byte_rank identity.name)) := by
    rintro ⟨⟨⟩, name⟩ ⟨⟨⟩, name'⟩ h
    have hname : name = name' := byte_rank_injective (Prod.mk.inj (toLex.injective h)).2
    rw [hname]
  have hrank := hidentities.map hinj
  rw [List.map_map] at hrank ⊢
  exact hrank

/-- A captured state lists every field once, in strict order, with its value. -/
theorem snapshot_fields (self : StateRegistry) (order : IterOrder) :
    ∀ s ∈ self.snapshot order,
      s.fields.Pairwise (fun a b => byte_rank a.1 < byte_rank b.1)
      ∧ ∀ key value, (key, value) ∈ s.fields
          ↔ self.get ⟨s.state_type, s.name⟩ key = some value := by
  intro s hs
  obtain ⟨fields, hlookup, hfields⟩ := (self.mem_snapshot order s).mp hs
  obtain ⟨hsorted, hmem⟩ := fields_spec order ⟨s.state_type, s.name⟩ fields
  rw [hfields]
  refine ⟨hsorted, fun key value => ?_⟩
  rw [hmem, get, hlookup, Option.bind_some]

/-- A snapshot lists the recorded states. -/
theorem exists_mem_snapshot (self : StateRegistry) (order : IterOrder) (identity : StateIdentity) :
    (∃ s ∈ self.snapshot order, (⟨s.state_type, s.name⟩ : StateIdentity) = identity)
      ↔ self.recorded identity := by
  constructor
  · rintro ⟨s, hs, rfl⟩
    obtain ⟨fields, hlookup, -⟩ := (self.mem_snapshot order s).mp hs
    exact ⟨fields, hlookup⟩
  · rintro ⟨fields, hlookup⟩
    exact ⟨⟨identity.state_type, identity.name,
      sort_by (fun f => byte_rank f.1) (order.fields identity fields)⟩,
      (self.mem_snapshot order _).mpr ⟨fields, hlookup, rfl⟩, rfl⟩

/-- Stores of the same values have the same snapshots, in whatever orders their maps are iterated. -/
theorem snapshot_congr {a b : StateRegistry} (hget : ∀ identity key, a.get identity key = b.get identity key)
    (hrecorded : ∀ identity, a.recorded identity ↔ b.recorded identity) (order order' : IterOrder) :
    a.snapshot order = b.snapshot order' := by
  have hsub : ∀ {a b : StateRegistry} (order order' : IterOrder),
      (∀ identity key, a.get identity key = b.get identity key) →
      (∀ identity, a.recorded identity ↔ b.recorded identity) →
      ∀ s ∈ a.snapshot order, s ∈ b.snapshot order' := by
    intro a b order order' hget hrecorded s hs
    obtain ⟨s', hs', hidentity⟩ := (b.exists_mem_snapshot order' ⟨s.state_type, s.name⟩).mpr
      ((hrecorded _).mp ((a.exists_mem_snapshot order _).mp ⟨s, hs, rfl⟩))
    obtain ⟨hsorted, hmem⟩ := a.snapshot_fields order s hs
    obtain ⟨hsorted', hmem'⟩ := b.snapshot_fields order' s' hs'
    -- the state of the same name has the same fields
    have hfields : s.fields = s'.fields := by
      refine eq_of_pairwise_lt hsorted hsorted' (fun ⟨key, value⟩ => ?_)
      rw [hmem, hmem', hidentity, hget]
    obtain ⟨htype, hname⟩ := StateIdentity.mk.inj hidentity
    have heq : s = s' := by
      obtain ⟨_, _, _⟩ := s
      obtain ⟨_, _, _⟩ := s'
      simp_all
    exact heq ▸ hs'
  refine eq_of_pairwise_lt (a.snapshot_pairwise order) (b.snapshot_pairwise order')
    (fun s => ⟨hsub order order' hget hrecorded s, hsub order' order ?_ ?_ s⟩)
  · exact fun identity key => (hget identity key).symm
  · exact fun identity => (hrecorded identity).symm

end StateRegistry

end BrzMetrics
