/-
The producer-facing half of `src/src/plan.rs`: one exported view of a slot
(`ProfileOutput`), the immutable export plan of a slot (`ProfilePlan`), and the
metadata a registration leaves behind (`ProfileMeta`).
-/
import BrzMetrics.Metric

set_option autoImplicit false

namespace BrzMetrics

/-- One `type`/`name` view emitted from a metric snapshot. -/
@[ext]
structure ProfileOutput where
  metric_type : String
  name : String
  resource : Option ResourceLabels
deriving DecidableEq, Repr

/-- `ProfileOutput::new`. -/
def ProfileOutput.new (metric_type name : String) : ProfileOutput :=
  { metric_type := metric_type, name := name, resource := none }

@[simp] theorem ProfileOutput.new_resource (metric_type name : String) :
    (ProfileOutput.new metric_type name).resource = none := rfl

/-- Immutable export plan for one counter slot.

The source's fields are private to the crate, so a plan is only ever built by
`new`, `alias` and `aggregate`, and none of them gives an output resource
labels. The two proof fields say so. -/
structure ProfilePlan where
  identity : String
  policy : MetricPolicy
  outputs : List ProfileOutput
  aggregate : Option ProfileOutput
  outputs_plain : ∀ output ∈ outputs, output.resource = none
  aggregate_plain : ∀ output ∈ aggregate, output.resource = none
deriving DecidableEq, Repr

namespace ProfilePlan

/-- `ProfilePlan::new`: a plan with its canonical output. The format marker is ignored. -/
def new (identity : String) (policy : MetricPolicy) (_format : ProfileFormat)
    (metric_type name : String) : ProfilePlan where
  identity := identity
  policy := policy
  outputs := [ProfileOutput.new metric_type name]
  aggregate := none
  outputs_plain := by simp
  aggregate_plain := by simp

/-- `ProfilePlan::alias`: another direct view of the same counters. -/
def with_alias (self : ProfilePlan) (metric_type name : String) : ProfilePlan where
  identity := self.identity
  policy := self.policy
  outputs := self.outputs ++ [ProfileOutput.new metric_type name]
  aggregate := self.aggregate
  outputs_plain := by
    intro output h
    rcases List.mem_append.mp h with h | h
    · exact self.outputs_plain output h
    · rw [List.mem_singleton.mp h, ProfileOutput.new_resource]
  aggregate_plain := self.aggregate_plain

/-- `ProfilePlan::aggregate`: one scrape-time aggregate target. A second call replaces it. -/
def with_aggregate (self : ProfilePlan) (metric_type name : String) : ProfilePlan where
  identity := self.identity
  policy := self.policy
  outputs := self.outputs
  aggregate := some (ProfileOutput.new metric_type name)
  outputs_plain := self.outputs_plain
  aggregate_plain := by simp

end ProfilePlan

/-- Metadata of one timing slot. -/
inductive ProfileMeta where
  | Single (name : String) (kind : MetricType)
  | Resource (labels : ResourceLabels) (kind : MetricType)
  | Fanout (plan : ProfilePlan)
deriving DecidableEq, Repr

end BrzMetrics
