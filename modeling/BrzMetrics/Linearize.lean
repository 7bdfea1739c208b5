/-
Linearizability, by the method of linearization points.

Clients call operations of a shared object. What can be seen from outside is the
history: which operations were invoked and with what results they responded, in
the order in which this happened. The object is linearizable if its operations
can be put in one order in which a sequential object gives the same results and
that agrees with the history: whatever responded before something else was
invoked comes before it (`Linearization`).

`AtomicObject` is the object that does so by construction: an operation is performed at
one moment between its invocation and its response. All its runs are
linearizable (`AtomicObject.linearization`). An implementation is linearizable if each
of its steps is matched by steps of `AtomicObject` (`run_steps`); which of its steps
stands for performing an operation is up to the implementation.
-/
import Mathlib

set_option autoImplicit false

namespace BrzMetrics.Linearize

/-! ## Histories -/

section Histories

variable {Client Op Result : Type}

/-- What can be seen of a client. -/
inductive Event (Client Op Result : Type) where
  | invoke (client : Client) (op : Op)
  | respond (client : Client) (result : Result)

/-- An operation that has been performed. -/
structure Effect (Client Op Result : Type) where
  client : Client
  op : Op
  result : Result

/-- The operation a client invokes in an event. -/
def Event.invoked [DecidableEq Client] (client : Client) : Event Client Op Result → Option Op
  | .invoke c op => if c = client then some op else none
  | .respond _ _ => none

/-- The result a client receives in an event. -/
def Event.responded [DecidableEq Client] (client : Client) : Event Client Op Result → Option Result
  | .invoke _ _ => none
  | .respond c result => if c = client then some result else none

/-- What a client has invoked. -/
def invocations [DecidableEq Client] (client : Client) (history : List (Event Client Op Result)) :
    List Op := history.filterMap (Event.invoked client)

/-- What a client has received. -/
def responses [DecidableEq Client] (client : Client) (history : List (Event Client Op Result)) :
    List Result := history.filterMap (Event.responded client)

/-- The operations of a client among those performed. -/
def effects [DecidableEq Client] (client : Client) (order : List (Effect Client Op Result)) :
    List (Effect Client Op Result) := order.filter (fun e => e.client = client)

variable {S : Type} (perform : Op → S → Result × S)

/-- The operations, one after the other, have the recorded results and take a sequential object
from its first state to another. -/
inductive Legal (first : S) : List (Effect Client Op Result) → S → Prop where
  | nil : Legal first [] first
  | snoc {order : List (Effect Client Op Result)} {s : S} (h : Legal first order s)
      (client : Client) (op : Op) :
      Legal first (order ++ [⟨client, op, (perform op s).1⟩]) (perform op s).2

/-- An order in which the operations of a history may have happened. -/
structure Linearization [DecidableEq Client] (first : S) (history : List (Event Client Op Result))
    (order : List (Effect Client Op Result)) : Prop where
  /-- A sequential object gives the recorded results. -/
  legal : ∃ s, Legal perform first order s
  /-- Only what was invoked is performed, in the order of each client's program. -/
  invoked : ∀ client, (effects client order).map Effect.op <+: invocations client history
  /-- Every response is the result of the operation it responds to. -/
  responded : ∀ client, responses client history <+: (effects client order).map Effect.result
  /-- At any moment, the order splits into two: what has responded by then is in the first part,
  and what has not been invoked by then is in the second. -/
  real_time : ∀ before, before <+: history → ∃ early, early <+: order
    ∧ ∀ client, (responses client before).length ≤ (effects client early).length
      ∧ (effects client early).length ≤ (invocations client before).length

end Histories

/-! ## The atomic object -/

/-- Where a client is in its operation. -/
inductive Phase (Op Result : Type) where
  | idle
  | called (op : Op)
  | performed (op : Op) (result : Result)

/-- An object that performs one operation at a time, with the record of what it did. -/
structure AtomicObject (Client Op Result S : Type) where
  object : S
  phase : Client → Phase Op Result
  history : List (Event Client Op Result)
  order : List (Effect Client Op Result)

namespace AtomicObject

variable {Client Op Result S : Type}

/-- The object before any operation. -/
def new (first : S) : AtomicObject Client Op Result S :=
  { object := first, phase := fun _ => .idle, history := [], order := [] }

variable [DecidableEq Client]

/-- A client invokes an operation. -/
def invoke (client : Client) (op : Op) (self : AtomicObject Client Op Result S) :
    AtomicObject Client Op Result S :=
  { self with
    phase := Function.update self.phase client (.called op)
    history := self.history ++ [.invoke client op] }

/-- The operation a client has invoked is performed. -/
def carry_out (perform : Op → S → Result × S) (client : Client) (op : Op)
    (self : AtomicObject Client Op Result S) : AtomicObject Client Op Result S :=
  { self with
    object := (perform op self.object).2
    phase := Function.update self.phase client (.performed op (perform op self.object).1)
    order := self.order ++ [⟨client, op, (perform op self.object).1⟩] }

/-- A client receives the result of its operation. -/
def respond (client : Client) (result : Result) (self : AtomicObject Client Op Result S) :
    AtomicObject Client Op Result S :=
  { self with
    phase := Function.update self.phase client .idle
    history := self.history ++ [.respond client result] }

/-- One step: each client invokes, has its operation performed, and receives the result. -/
inductive Step (perform : Op → S → Result × S) :
    AtomicObject Client Op Result S → AtomicObject Client Op Result S → Prop where
  | invoke {a : AtomicObject Client Op Result S} (client : Client) (op : Op)
      (h : a.phase client = .idle) : Step perform a (a.invoke client op)
  | carry_out {a : AtomicObject Client Op Result S} (client : Client) (op : Op)
      (h : a.phase client = .called op) : Step perform a (a.carry_out perform client op)
  | respond {a : AtomicObject Client Op Result S} (client : Client) (op : Op) (result : Result)
      (h : a.phase client = .performed op result) : Step perform a (a.respond client result)

/-- Any number of steps. -/
abbrev Steps (perform : Op → S → Result × S) :
    AtomicObject Client Op Result S → AtomicObject Client Op Result S → Prop :=
  Relation.ReflTransGen (Step perform)

end AtomicObject

/-! ## Its runs are linearizable -/

section Client

variable {Client Op Result : Type}

/-- What a client has invoked and received, and what of it has been performed. -/
def Phase.Fits (invoked : List Op) (received : List Result)
    (done : List (Effect Client Op Result)) : Phase Op Result → Prop
  | .idle => invoked = done.map Effect.op ∧ received = done.map Effect.result
  | .called op => invoked = done.map Effect.op ++ [op] ∧ received = done.map Effect.result
  | .performed _ result =>
    invoked = done.map Effect.op ∧ received ++ [result] = done.map Effect.result

/-- In any phase, what was performed was invoked, and what was received was performed. -/
theorem Phase.Fits.prefixes {invoked : List Op} {received : List Result}
    {done : List (Effect Client Op Result)} {phase : Phase Op Result}
    (h : phase.Fits invoked received done) :
    done.map Effect.op <+: invoked ∧ received <+: done.map Effect.result := by
  cases phase with
  | idle =>
    obtain ⟨rfl, rfl⟩ := h
    exact ⟨List.prefix_rfl, List.prefix_rfl⟩
  | called op =>
    obtain ⟨rfl, rfl⟩ := h
    exact ⟨List.prefix_append _ _, List.prefix_rfl⟩
  | performed op result =>
    obtain ⟨rfl, hresult⟩ := h
    exact ⟨List.prefix_rfl, hresult ▸ List.prefix_append _ _⟩

variable [DecidableEq Client] (client : Client) (history : List (Event Client Op Result))
  (order : List (Effect Client Op Result)) (c : Client)

@[simp] theorem invocations_invoke (op : Op) :
    invocations client (history ++ [.invoke c op])
      = invocations client history ++ if c = client then [op] else [] := by
  rw [invocations, List.filterMap_append]
  split_ifs with h <;> simp [invocations, Event.invoked, h]

@[simp] theorem invocations_respond (result : Result) :
    invocations client (history ++ [.respond c result]) = invocations client history := by
  simp [invocations, Event.invoked]

@[simp] theorem responses_invoke (op : Op) :
    responses client (history ++ [.invoke c op]) = responses client history := by
  simp [responses, Event.responded]

@[simp] theorem responses_respond (result : Result) :
    responses client (history ++ [.respond c result])
      = responses client history ++ if c = client then [result] else [] := by
  rw [responses, List.filterMap_append]
  split_ifs with h <;> simp [responses, Event.responded, h]

@[simp] theorem effects_append (e : Effect Client Op Result) :
    effects client (order ++ [e])
      = effects client order ++ if e.client = client then [e] else [] := by
  rw [effects, List.filter_append]
  split_ifs with h <;> simp [effects, h]

end Client

namespace AtomicObject

variable {Client Op Result S : Type} [DecidableEq Client] {perform : Op → S → Result × S}
  {first : S} {a b : AtomicObject Client Op Result S}

/-- What holds of the record of an atomic object. -/
structure Inv (perform : Op → S → Result × S) (first : S) (a : AtomicObject Client Op Result S) :
    Prop where
  legal : Legal perform first a.order a.object
  fits : ∀ client, (a.phase client).Fits (invocations client a.history)
    (responses client a.history) (effects client a.order)
  real_time : ∀ before, before <+: a.history → ∃ early, early <+: a.order
    ∧ ∀ client, (responses client before).length ≤ (effects client early).length
      ∧ (effects client early).length ≤ (invocations client before).length

theorem inv_new : (new first : AtomicObject Client Op Result S).Inv perform first where
  legal := .nil
  fits := fun _ => ⟨rfl, rfl⟩
  real_time := fun before hbefore => ⟨[], List.prefix_rfl, fun client => by
    obtain rfl := List.prefix_nil.mp hbefore
    exact ⟨le_rfl, le_rfl⟩⟩

/-- After another event the whole order is the one that fits the whole history, and for what
came before nothing changes. -/
theorem real_time_snoc {history : List (Event Client Op Result)}
    {order : List (Effect Client Op Result)} {event : Event Client Op Result}
    {phase : Client → Phase Op Result}
    (h : ∀ before, before <+: history → ∃ early, early <+: order
      ∧ ∀ client, (responses client before).length ≤ (effects client early).length
        ∧ (effects client early).length ≤ (invocations client before).length)
    (hfits : ∀ client, (phase client).Fits (invocations client (history ++ [event]))
      (responses client (history ++ [event])) (effects client order)) :
    ∀ before, before <+: history ++ [event] → ∃ early, early <+: order
      ∧ ∀ client, (responses client before).length ≤ (effects client early).length
        ∧ (effects client early).length ≤ (invocations client before).length := by
  intro before hbefore
  rcases List.prefix_concat_iff.mp hbefore with rfl | hbefore
  · refine ⟨order, List.prefix_rfl, fun client => ?_⟩
    obtain ⟨hinvoked, hreceived⟩ := (hfits client).prefixes
    exact ⟨by simpa using hreceived.length_le, by simpa using hinvoked.length_le⟩
  · exact h before hbefore

theorem Inv.step (h : a.Inv perform first) (hstep : Step perform a b) : b.Inv perform first := by
  cases hstep with
  | invoke client op hidle =>
    have hfits : ∀ c, ((a.invoke client op).phase c).Fits
        (invocations c (a.invoke client op).history) (responses c (a.invoke client op).history)
        (effects c (a.invoke client op).order) := by
      intro c
      have hc := h.fits c
      simp only [invoke, invocations_invoke, responses_invoke]
      by_cases heq : client = c
      · subst heq
        rw [hidle] at hc
        rw [Function.update_self, if_pos rfl]
        exact ⟨congrArg (· ++ [op]) hc.1, hc.2⟩
      · rwa [Function.update_of_ne (Ne.symm heq), if_neg heq, List.append_nil]
    exact ⟨h.legal, hfits, real_time_snoc h.real_time hfits⟩
  | carry_out client op hcalled =>
    refine ⟨.snoc h.legal client op, fun c => ?_, fun before hbefore => ?_⟩
    · have hc := h.fits c
      simp only [carry_out, effects_append]
      by_cases heq : client = c
      · subst heq
        rw [hcalled] at hc
        rw [Function.update_self, if_pos rfl, Phase.Fits, List.map_append, List.map_append]
        exact ⟨hc.1, congrArg (· ++ [_]) hc.2⟩
      · rwa [Function.update_of_ne (Ne.symm heq), if_neg heq, List.append_nil]
    · -- nothing was seen, and the order has only become longer
      obtain ⟨early, hearly, hcounts⟩ := h.real_time before hbefore
      exact ⟨early, hearly.trans (List.prefix_append _ _), hcounts⟩
  | respond client op result hperformed =>
    have hfits : ∀ c, ((a.respond client result).phase c).Fits
        (invocations c (a.respond client result).history)
        (responses c (a.respond client result).history)
        (effects c (a.respond client result).order) := by
      intro c
      have hc := h.fits c
      simp only [respond, invocations_respond, responses_respond]
      by_cases heq : client = c
      · subst heq
        rw [hperformed] at hc
        rw [Function.update_self, if_pos rfl]
        exact ⟨hc.1, hc.2⟩
      · rwa [Function.update_of_ne (Ne.symm heq), if_neg heq, List.append_nil]
    exact ⟨h.legal, hfits, real_time_snoc h.real_time hfits⟩

theorem Inv.steps (h : a.Inv perform first) (hsteps : Steps perform a b) : b.Inv perform first := by
  induction hsteps with
  | refl => exact h
  | tail _ hstep ih => exact ih.step hstep

/-- A run of the atomic object is linearizable, in the order in which it performed its
operations. -/
theorem linearization (h : Steps perform (new first) a) :
    Linearization perform first a.history a.order where
  legal := ⟨a.object, (inv_new.steps h).legal⟩
  invoked := fun client => ((inv_new.steps h).fits client).prefixes.1
  responded := fun client => ((inv_new.steps h).fits client).prefixes.2
  real_time := (inv_new.steps h).real_time

end AtomicObject

/-! ## Implementations -/

/-- An implementation whose every turn is matched by steps of the atomic object, as long as its
own invariant holds, behaves like the atomic object along every schedule. -/
theorem run_steps {Client Op Result S σ Turn : Type} [DecidableEq Client]
    {perform : Op → S → Result × S} {step : σ → Turn → Option σ} {P : σ → Prop}
    (record : σ → AtomicObject Client Op Result S)
    (hstep : ∀ {s s' : σ} {turn : Turn}, P s → step s turn = some s' →
      P s' ∧ AtomicObject.Steps perform (record s) (record s'))
    {schedule : List Turn} {s s' : σ} (h : P s) (hs : schedule.foldlM step s = some s') :
    P s' ∧ AtomicObject.Steps perform (record s) (record s') := by
  induction schedule generalizing s with
  | nil =>
    obtain rfl : s = s' := Option.some.inj hs
    exact ⟨h, .refl⟩
  | cons turn schedule ih =>
    rw [List.foldlM_cons] at hs
    obtain ⟨t, ht, hrest⟩ := Option.bind_eq_some_iff.mp hs
    obtain ⟨htP, hfirst⟩ := hstep h ht
    obtain ⟨hsP, hothers⟩ := ih htP hrest
    exact ⟨hsP, hfirst.trans hothers⟩

end BrzMetrics.Linearize
