/-
The RPC state store of `src/src/state.rs`: a map from names to maps of fields,
written under one mutex and captured as a sorted snapshot.

A `HashMap` is modelled by Mathlib's `AList`, a list of entries with distinct
keys. The order of that list means nothing: where the source iterates over a
map, the model takes the order from `IterOrder`, which may be any rearrangement
of the entries of each map.
-/
import BrzMetrics.Bytes
import BrzMetrics.SortBy

set_option autoImplicit false

namespace BrzMetrics

open SortBy

/-- `HashMap<K, V, RandomState>`. -/
abbrev FastHashMap (K V : Type) := AList (fun _ : K => V)

/-- The entries of a map as pairs. -/
def FastHashMap.pairs {K V : Type} (m : FastHashMap K V) : List (K × V) :=
  m.entries.map (fun e => (e.1, e.2))

inductive StateType where
  | Rpc
deriving DecidableEq, Repr

/-- `StateType::metric_type`. -/
def StateType.metric_type : StateType → String
  | .Rpc => "MOTAN_CLUSTER_STAT"

/-- The fields of one state, as captured. -/
structure StateSnapshot where
  state_type : StateType
  name : String
  fields : List (String × String)
deriving DecidableEq, Repr

structure StateIdentity where
  state_type : StateType
  name : String
deriving DecidableEq, Repr

abbrev StateFields := FastHashMap String String
abbrev StateMap := FastHashMap StateIdentity StateFields

/-- The orders in which the hash maps are iterated, which the seeds decide. -/
structure IterOrder where
  states : StateMap → List (StateIdentity × StateFields)
  fields : StateIdentity → StateFields → List (String × String)
  states_perm : ∀ m, (states m).Perm m.pairs
  fields_perm : ∀ identity m, (fields identity m).Perm m.pairs

/-- The order in which the entries happen to be stored. -/
def IterOrder.stored : IterOrder where
  states := FastHashMap.pairs
  fields := fun _ => FastHashMap.pairs
  states_perm := fun _ => List.Perm.refl _
  fields_perm := fun _ _ => List.Perm.refl _

structure StateRegistry where
  states : StateMap

namespace StateRegistry

/-- `StateRegistry::default`. -/
def default : StateRegistry := { states := ∅ }

/-- `StateRegistry::record`. -/
def record (self : StateRegistry) (state_type : StateType) (name key value : String) :
    StateRegistry :=
  let identity : StateIdentity := { state_type := state_type, name := name }
  -- `entry(identity).or_default()`
  let fields : StateFields := (self.states.lookup identity).getD ∅
  if fields.lookup key = some value then
    -- the early return: the entry stays as it was found
    { states := self.states.insert identity fields }
  else
    { states := self.states.insert identity (fields.insert key value) }

/-- `StateRegistry::snapshot`. -/
def snapshot (self : StateRegistry) (order : IterOrder) : List StateSnapshot :=
  let snapshots := (order.states self.states).map (fun (identity, fields) =>
    { state_type := identity.state_type, name := identity.name,
      fields := order.fields identity fields : StateSnapshot })
  let snapshots := sort_by
    (fun s : StateSnapshot => toLex (byte_rank s.state_type.metric_type, byte_rank s.name)) snapshots
  snapshots.map (fun s => { s with fields := sort_by (fun f => byte_rank f.1) s.fields })

/-- The value of a field, if it was ever recorded. -/
def get (self : StateRegistry) (identity : StateIdentity) (key : String) : Option String :=
  (self.states.lookup identity).bind (fun fields => fields.lookup key)

end StateRegistry

end BrzMetrics
