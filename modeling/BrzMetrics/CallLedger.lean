/-
A ledger of calls whose steps interleave.

Threads make calls, one after the other; a call is a list of steps, its program.
The ledger gives every call a number when it begins, and writes each step down
with the number of its call, so the steps of all calls are a concurrent run of
their programs (`Ledger.Valid.concurrent`). `Ledger.Valid` is the invariant: what a
call has done and what its thread has left of it make up its program, no call is
that of two threads, and a call that no thread is in any more has done all of it.
Ledgers only grow, and a call that is over stays so (`Ledger.Le`).
-/
import BrzMetrics.Interleave

set_option autoImplicit false

namespace BrzMetrics.CallLedger

open Interleave

/-- The calls begun, the steps made, each with the number of its call, and the call every thread
is in. -/
structure Ledger (ι C α : Type) where
  calls : List C
  steps : List (ℕ × α)
  current : ι → Option ℕ

namespace Ledger

variable {ι C α : Type} [DecidableEq ι]

/-- Nothing has been called. -/
def new : Ledger ι C α := { calls := [], steps := [], current := fun _ => none }

/-- A thread begins a call. -/
def begin_call (t : ι) (call : C) (self : Ledger ι C α) : Ledger ι C α where
  calls := self.calls ++ [call]
  steps := self.steps
  current := Function.update self.current t (some self.calls.length)

/-- A thread makes a step of its call, if it is in one. -/
def make (t : ι) (a : α) (self : Ledger ι C α) : Ledger ι C α :=
  { self with steps := self.steps ++ ((self.current t).map (fun i => (i, a))).toList }

/-- A thread has returned. -/
def leave (t : ι) (self : Ledger ι C α) : Ledger ι C α :=
  { self with current := Function.update self.current t none }

/-- No thread is in a call. -/
def Over (self : Ledger ι C α) (i : ℕ) : Prop := ∀ t, self.current t ≠ some i

/-! ## The invariant -/

/-- `left` is what the threads have left of their calls. -/
structure Valid (program : C → List α) (left : ι → List α) (l : Ledger ι C α) : Prop where
  tags : ∀ s ∈ l.steps, s.1 < l.calls.length
  running : ∀ t i, l.current t = some i →
    ∃ call, l.calls[i]? = some call ∧ program call = progress l.steps i ++ left t
  alone : ∀ t t' i, l.current t = some i → l.current t' = some i → t = t'
  finished : ∀ i call, l.calls[i]? = some call → l.Over i → progress l.steps i = program call

section Valid

variable {program : C → List α} {left left' : ι → List α} {l : Ledger ι C α}

omit [DecidableEq ι] in
theorem valid_new : (new : Ledger ι C α).Valid program left where
  tags := fun _ h => absurd h List.not_mem_nil
  running := fun _ _ h => absurd h.symm (Option.some_ne_none _)
  alone := fun _ _ _ h => absurd h.symm (Option.some_ne_none _)
  finished := fun _ _ h => absurd h.symm (Option.some_ne_none _)

omit [DecidableEq ι] in
/-- Only what the threads in a call have left matters. -/
theorem Valid.congr (h : l.Valid program left)
    (heq : ∀ t i, l.current t = some i → left' t = left t) : l.Valid program left' where
  tags := h.tags
  running := fun t i ht => by
    rw [heq t i ht]
    exact h.running t i ht
  alone := h.alone
  finished := h.finished

omit [DecidableEq ι] in
/-- Calls are numbered as they begin. -/
theorem Valid.current_lt (h : l.Valid program left) {t : ι} {i : ℕ} (ht : l.current t = some i) :
    i < l.calls.length := by
  obtain ⟨call, hcall, -⟩ := h.running t i ht
  exact (List.getElem?_eq_some_iff.mp hcall).1

omit [DecidableEq ι] in
/-- A number that no call has has no steps. -/
theorem Valid.progress_ge (h : l.Valid program left) {i : ℕ} (hi : l.calls.length ≤ i) :
    progress l.steps i = [] := by
  rw [progress, List.filter_eq_nil_iff.mpr, List.map_nil]
  intro s hs
  have := h.tags s hs
  simp only [decide_eq_true_eq]
  omega

/-- A call that begins has its whole program left. -/
theorem Valid.begin_call (h : l.Valid program left) {t : ι} {call : C}
    (hidle : l.current t = none) (hleft : left' t = program call) (hothers : ∀ t', t' ≠ t → left' t' = left t') :
    (l.begin_call t call).Valid program left' where
  tags := fun s hs => by
    have := h.tags s hs
    rw [Ledger.begin_call, List.length_append, List.length_singleton]
    exact Nat.lt_succ_of_lt this
  running := fun t' i ht' => by
    change Function.update l.current t (some l.calls.length) t' = some i at ht'
    change ∃ c, (l.calls ++ [call])[i]? = some c ∧ program c = progress l.steps i ++ left' t'
    by_cases heq : t' = t
    · subst heq
      rw [Function.update_self, Option.some.injEq] at ht'
      subst ht'
      exact ⟨call, List.getElem?_concat_length, by rw [h.progress_ge le_rfl, hleft]; rfl⟩
    · rw [Function.update_of_ne heq] at ht'
      rw [List.getElem?_append_left (h.current_lt ht'), hothers t' heq]
      exact h.running t' i ht'
  alone := fun t₁ t₂ i h₁ h₂ => by
    change Function.update l.current t (some l.calls.length) t₁ = some i at h₁
    change Function.update l.current t (some l.calls.length) t₂ = some i at h₂
    -- the new call has a number that no thread had
    have hnew : ∀ t', t' ≠ t → l.current t' ≠ some l.calls.length :=
      fun t' _ ht' => lt_irrefl _ (h.current_lt ht')
    by_cases heq₁ : t₁ = t <;> by_cases heq₂ : t₂ = t
    · rw [heq₁, heq₂]
    · subst heq₁
      rw [Function.update_self, Option.some.injEq] at h₁
      rw [Function.update_of_ne heq₂, ← h₁] at h₂
      exact absurd h₂ (hnew t₂ heq₂)
    · subst heq₂
      rw [Function.update_self, Option.some.injEq] at h₂
      rw [Function.update_of_ne heq₁, ← h₂] at h₁
      exact absurd h₁ (hnew t₁ heq₁)
    · rw [Function.update_of_ne heq₁] at h₁
      rw [Function.update_of_ne heq₂] at h₂
      exact h.alone t₁ t₂ i h₁ h₂
  finished := fun i c hi hover => by
    change (l.calls ++ [call])[i]? = some c at hi
    have hne : i ≠ l.calls.length := fun heq => by
      subst heq
      exact hover t (Function.update_self _ _ _)
    have hlt : i < l.calls.length := by
      have := (List.getElem?_eq_some_iff.mp hi).1
      rw [List.length_append, List.length_singleton] at this
      omega
    rw [List.getElem?_append_left hlt] at hi
    refine h.finished i c hi (fun t' ht' => ?_)
    have heq : t' ≠ t := fun heq => by
      rw [heq, hidle] at ht'
      exact Option.some_ne_none i ht'.symm
    exact hover t' ((Function.update_of_ne heq _ _).trans ht')

/-- A step is the next one of the call its thread is in. -/
theorem Valid.make (h : l.Valid program left) {t : ι} {a : α} {rest : List α}
    (hleft : left t = a :: rest) (hleft' : left' t = rest)
    (hothers : ∀ t', t' ≠ t → left' t' = left t') : (l.make t a).Valid program left' := by
  cases hcurrent : l.current t with
  | none =>
    have hsame : l.make t a = l := by
      rw [Ledger.make, hcurrent]
      exact congrArg (fun steps => Ledger.mk l.calls steps l.current) (List.append_nil _)
    rw [hsame]
    refine h.congr (fun t' i ht' => hothers t' (fun heq => ?_))
    rw [heq, hcurrent] at ht'
    exact Option.some_ne_none i ht'.symm
  | some i =>
    have hsteps : (l.make t a).steps = l.steps ++ [(i, a)] := by
      rw [Ledger.make, hcurrent]
      rfl
    have hprogress : ∀ j, progress (l.make t a).steps j
        = progress l.steps j ++ if i = j then [a] else [] := by
      intro j
      rw [hsteps, progress_append, progress_cons]
      rfl
    refine ⟨fun s hs => ?_, fun t' j ht' => ?_, h.alone, fun j call hj hover => ?_⟩
    · rw [hsteps] at hs
      rcases List.mem_append.mp hs with hs | hs
      · exact h.tags s hs
      · rw [List.mem_singleton.mp hs]
        exact h.current_lt hcurrent
    · obtain ⟨call, hcall, hprogram⟩ := h.running t' j ht'
      refine ⟨call, hcall, ?_⟩
      rw [hprogress]
      by_cases heq : t' = t
      · subst heq
        obtain rfl := Option.some.inj (hcurrent.symm.trans ht')
        rw [if_pos rfl, hprogram, hleft, hleft', List.append_assoc]
        rfl
      · -- the step is that of another call
        have hne : i ≠ j := fun hij => heq (h.alone t' t j ht' (hij ▸ hcurrent))
        rw [if_neg hne, hprogram, hothers t' heq, List.append_nil]
    · have hne : i ≠ j := fun hij => hover t (hij ▸ hcurrent)
      rw [hprogress, if_neg hne, List.append_nil]
      exact h.finished j call hj hover

/-- A thread that returns has nothing left of its call. -/
theorem Valid.leave (h : l.Valid program left) {t : ι} (hleft : left t = [])
    (hothers : ∀ t', t' ≠ t → left' t' = left t') : (l.leave t).Valid program left' where
  tags := h.tags
  running := fun t' i ht' => by
    change Function.update l.current t none t' = some i at ht'
    have heq : t' ≠ t := fun heq => by
      rw [heq, Function.update_self] at ht'
      exact Option.some_ne_none i ht'.symm
    rw [Function.update_of_ne heq] at ht'
    rw [hothers t' heq]
    exact h.running t' i ht'
  alone := fun t₁ t₂ i h₁ h₂ => by
    have hcurrent : ∀ t', Function.update l.current t none t' = some i → l.current t' = some i := by
      intro t' ht'
      have heq : t' ≠ t := fun heq => by
        rw [heq, Function.update_self] at ht'
        exact Option.some_ne_none i ht'.symm
      rwa [Function.update_of_ne heq] at ht'
    exact h.alone t₁ t₂ i (hcurrent t₁ h₁) (hcurrent t₂ h₂)
  finished := fun i call hi hover => by
    by_cases hi' : l.current t = some i
    · -- this call is over now, and nothing was left of it
      obtain ⟨call', hcall', hprogram⟩ := h.running t i hi'
      obtain rfl := Option.some.inj (hi.symm.trans hcall')
      rw [hprogram, hleft, List.append_nil]
      rfl
    · refine h.finished i call hi (fun t' ht' => ?_)
      have heq : t' ≠ t := fun heq => hi' (heq ▸ ht')
      exact hover t' ((Function.update_of_ne heq _ _).trans ht')

end Valid

/-! ## Growth -/

/-- A later ledger: more calls and steps, and what was over still is. -/
structure Le (l l' : Ledger ι C α) : Prop where
  calls : l.calls <+: l'.calls
  steps : l.steps <+: l'.steps
  closed : ∀ i < l.calls.length, ∀ t, l'.current t = some i → l.current t = some i

section Growth

variable {l l' l'' : Ledger ι C α}

omit [DecidableEq ι] in
theorem Le.refl (l : Ledger ι C α) : l.Le l :=
  ⟨List.prefix_rfl, List.prefix_rfl, fun _ _ _ h => h⟩

omit [DecidableEq ι] in
theorem Le.trans (h : l.Le l') (h' : l'.Le l'') : l.Le l'' :=
  ⟨h.calls.trans h'.calls, h.steps.trans h'.steps, fun i hi t ht =>
    h.closed i hi t (h'.closed i (hi.trans_le h.calls.length_le) t ht)⟩

theorem le_begin_call (l : Ledger ι C α) (t : ι) (call : C) : l.Le (l.begin_call t call) where
  calls := List.prefix_append _ _
  steps := List.prefix_rfl
  closed := fun i hi t' ht' => by
    change Function.update l.current t (some l.calls.length) t' = some i at ht'
    by_cases heq : t' = t
    · rw [heq, Function.update_self, Option.some.injEq] at ht'
      omega
    · rwa [Function.update_of_ne heq] at ht'

omit [DecidableEq ι] in
theorem le_make (l : Ledger ι C α) (t : ι) (a : α) : l.Le (l.make t a) :=
  ⟨List.prefix_rfl, List.prefix_append _ _, fun _ _ _ h => h⟩

theorem le_leave (l : Ledger ι C α) (t : ι) : l.Le (l.leave t) where
  calls := List.prefix_rfl
  steps := List.prefix_rfl
  closed := fun i _ t' ht' => by
    change Function.update l.current t none t' = some i at ht'
    by_cases heq : t' = t
    · rw [heq, Function.update_self] at ht'
      exact absurd ht'.symm (Option.some_ne_none i)
    · rwa [Function.update_of_ne heq] at ht'

end Growth

/-! ## Concurrent runs -/

section Concurrent

variable {program : C → List α} {left : ι → List α} {l : Ledger ι C α}

/-- The steps, each with the call it is of. -/
def tagged (l : Ledger ι C α) (h : ∀ s ∈ l.steps, s.1 < l.calls.length) :
    List (Fin l.calls.length × α) :=
  l.steps.pmap (fun s hs => (⟨s.1, hs⟩, s.2)) h

omit [DecidableEq ι] in
theorem map_snd_tagged (h : ∀ s ∈ l.steps, s.1 < l.calls.length) :
    (l.tagged h).map Prod.snd = l.steps.map Prod.snd := by
  rw [tagged, List.map_pmap, List.pmap_eq_map]

omit [DecidableEq ι] in
theorem progress_tagged (h : ∀ s ∈ l.steps, s.1 < l.calls.length) (t : ℕ)
    (i : Fin l.calls.length) :
    progress ((l.tagged h).take t) i = progress (l.steps.take t) i.val := by
  have hall : ∀ (steps : List (ℕ × α)) (h : ∀ s ∈ steps, s.1 < l.calls.length) (t : ℕ),
      progress ((steps.pmap (fun s hs => ((⟨s.1, hs⟩ : Fin l.calls.length), s.2)) h).take t) i
        = progress (steps.take t) i.val := by
    intro steps
    induction steps with
    | nil => intro _ t; rw [List.pmap_nil, List.take_nil, List.take_nil]; rfl
    | cons s steps ih =>
      intro h t
      cases t with
      | zero => rfl
      | succ t =>
        rw [List.pmap_cons, List.take_succ_cons, List.take_succ_cons, progress_cons, progress_cons,
          ih]
        exact if_congr Fin.ext_iff rfl rfl
  exact hall _ h t

omit [DecidableEq ι] in
/-- What a call has done is the beginning of its program. -/
theorem Valid.progress_prefix (h : l.Valid program left) {i : ℕ} {call : C}
    (hi : l.calls[i]? = some call) : progress l.steps i <+: program call := by
  by_cases hover : l.Over i
  · rw [h.finished i call hi hover]
  · obtain ⟨t, ht⟩ := not_forall.mp hover
    obtain ⟨call', hcall', hprogram⟩ := h.running t i (not_not.mp ht)
    obtain rfl := Option.some.inj (hi.symm.trans hcall')
    rw [hprogram]
    exact List.prefix_append _ _

omit [DecidableEq ι] in
/-- The steps of a ledger are a concurrent run of its calls. -/
theorem Valid.concurrent (h : l.Valid program left) :
    Concurrent (fun i : Fin l.calls.length => program l.calls[i]) (l.tagged h.tags) := by
  intro i
  have htagged := progress_tagged h.tags l.steps.length i
  have hlength : (l.tagged h.tags).length = l.steps.length := List.length_pmap
  rw [List.take_length, ← hlength, List.take_length] at htagged
  rw [htagged]
  exact h.progress_prefix (List.getElem?_eq_getElem i.isLt)

end Concurrent

end Ledger

end BrzMetrics.CallLedger
