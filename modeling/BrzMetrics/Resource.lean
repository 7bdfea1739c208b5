/-
The immutable resource labels of `src/src/resource.rs`: the operation an access
label names, the purpose of a connection, and the labels a resource handle is
registered under.

`Arc<str>` is modelled by `String`. Sharing is invisible to the program: labels
are compared, hashed and ordered by content only.
-/
import Mathlib

set_option autoImplicit false

namespace BrzMetrics

/-- Logical operation, independent of which connection serves it. -/
inductive MetricAccess where
  | Read
  | Write
  | Other
deriving DecidableEq, Repr

/-- `MetricAccess::label`: the exported text. -/
def MetricAccess.label : MetricAccess → String
  | .Read => "read"
  | .Write => "write"
  | .Other => "other"

/-- Purpose of one physical connection. -/
inductive ConnectionRole where
  | Read
  | Write
  | Shared
deriving DecidableEq, Repr

/-- `ConnectionRole::label`: the exported text. -/
def ConnectionRole.label : ConnectionRole → String
  | .Read => "read"
  | .Write => "write"
  | .Shared => "shared"

/-- Business resource identity. -/
@[ext]
structure ResourceLabels where
  name : String
  endpoint : String
  access : Option MetricAccess
  role : Option ConnectionRole
deriving DecidableEq, Repr

namespace ResourceLabels

def new (name endpoint : String) : ResourceLabels :=
  { name := name, endpoint := endpoint, access := none, role := none }

def with_access (self : ResourceLabels) (access : MetricAccess) : ResourceLabels :=
  { self with access := some access }

def with_role (self : ResourceLabels) (role : ConnectionRole) : ResourceLabels :=
  { self with role := some role }

end ResourceLabels

/-- Two operations never share an exported text. -/
theorem MetricAccess.label_injective : Function.Injective MetricAccess.label := by
  intro a b h
  cases a <;> cases b <;> first | rfl | (revert h; decide)

/-- Two connection purposes never share an exported text. -/
theorem ConnectionRole.label_injective : Function.Injective ConnectionRole.label := by
  intro a b h
  cases a <;> cases b <;> first | rfl | (revert h; decide)

end BrzMetrics
