/-
Release/acquire memory.

An execution is the list of its accesses. Every access knows what happens before it
(`past`), a store has a place in the modification order of its location (`stamp`),
and a load the place of the store it reads from. A store may take any place and a
load may read any store that coherence leaves open, so there is no order of the
stores that all threads agree on, and what a load returns may be old. An ordered
load (acquire) that reads an ordered store (release) learns what happens before the
store. Plain accesses are to memory that is not atomic; two accesses that conflict
must not be left unordered (`RaceFree`).

Some locations are only written by threads that know of all earlier writes, because
they hold a mutex, and after the first write of a location all others release
(`Serial`). What a thread knows of these is a beginning of the list of writes, and an
ordered load returns what a plain memory would hold after a beginning that is no
shorter, and that the thread knows from then on (`Serial.load`).
-/
import Mathlib

set_option autoImplicit false

namespace BrzMetrics.ReleaseAcquire

variable {L V : Type}

/-! ## Executions -/

/-- The kinds of access: to memory that is not atomic, `Relaxed`, and `Release` or `Acquire`. -/
inductive Mode where
  | plain
  | relaxed
  | ordered
deriving DecidableEq, Repr

/-- An access. `past` are the accesses that happen before it, by their numbers. -/
structure Event (L V : Type) where
  loc : L
  value : V
  stamp : ℕ
  is_store : Bool
  mode : Mode
  past : Finset ℕ

/-- Two accesses that a program has to order: one of them is a store, and one is not atomic. -/
def Event.Conflicts (d e : Event L V) : Prop :=
  d.loc = e.loc ∧ (d.is_store = true ∨ e.is_store = true) ∧ (d.mode = .plain ∨ e.mode = .plain)

/-- No data race: conflicting accesses are ordered. -/
def RaceFree (x : List (Event L V)) : Prop :=
  ∀ (j : ℕ) (e : Event L V), x[j]? = some e → ∀ (i : ℕ) (d : Event L V), i < j → x[i]? = some d →
    d.Conflicts e → i ∈ e.past

/-- Every access has the place of a store to its location. -/
def Sourced (x : List (Event L V)) : Prop :=
  ∀ e ∈ x, ∃ d ∈ x, d.is_store = true ∧ d.loc = e.loc ∧ d.stamp = e.stamp

variable [DecidableEq L]

/-- A store by a thread that knows `past`. `none`: the place is taken, or not above all the stores
that the thread knows of. -/
def store (x : List (Event L V)) (past : Finset ℕ) (loc : L) (value : V) (mode : Mode)
    (stamp : ℕ) : Option (List (Event L V) × Finset ℕ) :=
  if (∀ i ∈ past, ∀ e ∈ x[i]?, e.loc = loc → e.stamp < stamp)
      ∧ ∀ e ∈ x, e.is_store = true → e.loc = loc → e.stamp ≠ stamp then
    some (x ++ [⟨loc, value, stamp, true, mode, past⟩], insert x.length past)
  else none

/-- What a thread knows after it has read the store `w`, number `source`. -/
def acquire (past : Finset ℕ) (mode : Mode) (w : Event L V) (source : ℕ) : Finset ℕ :=
  if mode = .ordered ∧ w.mode = .ordered then past ∪ insert source w.past else past

omit [DecidableEq L] in
theorem subset_acquire (past : Finset ℕ) (mode : Mode) (w : Event L V) (source : ℕ) :
    past ⊆ acquire past mode w source := by
  unfold acquire
  split_ifs
  · exact Finset.subset_union_left
  · exact subset_rfl

omit [DecidableEq L] in
theorem acquire_ordered {w : Event L V} (hmode : w.mode = .ordered) (past : Finset ℕ)
    (source : ℕ) : insert source w.past ⊆ acquire past .ordered w source := by
  rw [acquire, if_pos ⟨rfl, hmode⟩]
  exact Finset.subset_union_right

/-- A load by a thread that knows `past`, of the value that access number `source` has stored.
`none`: that is no store to the location, or the thread knows of a later one. -/
def load (x : List (Event L V)) (past : Finset ℕ) (loc : L) (mode : Mode) (source : ℕ) :
    Option (V × List (Event L V) × Finset ℕ) :=
  match x[source]? with
  | some w =>
    if w.is_store = true ∧ w.loc = loc
        ∧ ∀ i ∈ past, ∀ e ∈ x[i]?, e.loc = loc → e.stamp ≤ w.stamp then
      some (w.value, x ++ [⟨loc, w.value, w.stamp, false, mode, acquire past mode w source⟩],
        insert x.length (acquire past mode w source))
    else none
  | none => none

section Accesses

variable {x x' : List (Event L V)} {past past' : Finset ℕ} {loc : L} {value : V} {mode : Mode}
  {stamp source : ℕ}

theorem store_spec (h : store x past loc value mode stamp = some (x', past')) :
    (∀ i ∈ past, ∀ e ∈ x[i]?, e.loc = loc → e.stamp < stamp)
      ∧ x' = x ++ [⟨loc, value, stamp, true, mode, past⟩] ∧ past' = insert x.length past := by
  unfold store at h
  split_ifs at h with hcoherent
  obtain ⟨rfl, rfl⟩ := Prod.mk.inj (Option.some.inj h)
  exact ⟨hcoherent.1, rfl, rfl⟩

theorem load_spec (h : load x past loc mode source = some (value, x', past')) :
    ∃ w : Event L V, x[source]? = some w ∧ w.is_store = true ∧ w.loc = loc ∧ w.value = value
      ∧ (∀ i ∈ past, ∀ e ∈ x[i]?, e.loc = loc → e.stamp ≤ w.stamp)
      ∧ x' = x ++ [⟨loc, value, w.stamp, false, mode, acquire past mode w source⟩]
      ∧ past' = insert x.length (acquire past mode w source) := by
  unfold load at h
  cases hw : x[source]? with
  | none => simp [hw] at h
  | some w =>
    simp only [hw] at h
    split_ifs at h with hcoherent
    obtain ⟨hstore, hloc, hle⟩ := hcoherent
    obtain ⟨rfl, hrest⟩ := Prod.mk.inj (Option.some.inj h)
    obtain ⟨rfl, rfl⟩ := Prod.mk.inj hrest
    exact ⟨w, rfl, hstore, hloc, rfl, hle, rfl, rfl⟩

/-- A store can always be made: at the end of the order of its location. -/
theorem exists_store (x : List (Event L V)) (past : Finset ℕ) (loc : L) (value : V) (mode : Mode) :
    ∃ stamp, (store x past loc value mode stamp).isSome = true := by
  obtain ⟨n, hn⟩ : ∃ n, ∀ e ∈ x, e.stamp < n := by
    induction x with
    | nil => exact ⟨0, fun e he => absurd he List.not_mem_nil⟩
    | cons e x ih =>
      obtain ⟨n, hn⟩ := ih
      refine ⟨max (e.stamp + 1) n, fun f hf => ?_⟩
      rcases List.mem_cons.mp hf with rfl | hf
      · exact lt_max_of_lt_left (Nat.lt_succ_self _)
      · exact lt_max_of_lt_right (hn f hf)
  refine ⟨n, ?_⟩
  rw [store, if_pos ⟨fun i _ e he _ => hn e (List.mem_of_getElem? he),
    fun e he _ _ => (hn e he).ne⟩]
  rfl

omit [DecidableEq L] in
/-- An access that knows of all accesses it conflicts with makes no race. -/
theorem RaceFree.append {e : Event L V} (h : RaceFree x)
    (he : ∀ i d, x[i]? = some d → d.Conflicts e → i ∈ e.past) : RaceFree (x ++ [e]) := by
  intro j f hf i d hij hd hconflict
  have hj : j < (x ++ [e]).length := (List.getElem?_eq_some_iff.mp hf).1
  rw [List.length_append, List.length_singleton] at hj
  rw [List.getElem?_append_left (by omega)] at hd
  rcases Nat.lt_succ_iff_lt_or_eq.mp hj with hj | rfl
  · rw [List.getElem?_append_left hj] at hf
    exact h j f hf i d hij hd hconflict
  · rw [List.getElem?_concat_length, Option.some.injEq] at hf
    subst hf
    exact he i d hd hconflict

omit [DecidableEq L] in
theorem Sourced.append {e : Event L V} (h : Sourced x)
    (he : e.is_store = false → ∃ d ∈ x, d.is_store = true ∧ d.loc = e.loc ∧ d.stamp = e.stamp) :
    Sourced (x ++ [e]) := by
  intro f hf
  rcases List.mem_append.mp hf with hf | hf
  · obtain ⟨d, hd, hstore⟩ := h f hf
    exact ⟨d, List.mem_append_left _ hd, hstore⟩
  · obtain rfl := List.mem_singleton.mp hf
    cases hstore : f.is_store with
    | true => exact ⟨f, List.mem_append_right _ hf, hstore, rfl, rfl⟩
    | false =>
      obtain ⟨d, hd, hd'⟩ := he hstore
      exact ⟨d, List.mem_append_left _ hd, hd'⟩

end Accesses

/-! ## Writes -/

variable (At : L → Prop) [DecidablePred At]

/-- The stores to some locations, with their numbers, in the order in which they were made. -/
def writes (x : List (Event L V)) : List (Event L V × ℕ) :=
  x.zipIdx.filter (fun d => d.1.is_store && decide (At d.1.loc))

variable {At}

omit [DecidableEq L] in
theorem mem_writes {x : List (Event L V)} {d : Event L V × ℕ} :
    d ∈ writes At x ↔ x[d.2]? = some d.1 ∧ d.1.is_store = true ∧ At d.1.loc := by
  rw [writes, List.mem_filter, List.mem_zipIdx_iff_getElem?, Bool.and_eq_true, decide_eq_true_eq]

omit [DecidableEq L] in
theorem writes_append (x : List (Event L V)) (e : Event L V) :
    writes At (x ++ [e])
      = writes At x ++ (if e.is_store = true ∧ At e.loc then [(e, x.length)] else []) := by
  rw [writes, List.zipIdx_append, List.filter_append, writes]
  congr 1
  by_cases h : e.is_store = true ∧ At e.loc
  · simp [h]
  · rw [if_neg h]
    simpa using h

omit [DecidableEq L] in
theorem writes_mono {x x' : List (Event L V)} (h : x <+: x') : writes At x <+: writes At x' := by
  obtain ⟨rest, rfl⟩ := h
  rw [writes, writes, List.zipIdx_append, List.filter_append]
  exact List.prefix_append _ _

/-- What a plain memory holds after some writes. -/
def content (ws : List (Event L V × ℕ)) (loc : L) : Option V :=
  ws.foldl (fun held d => if d.1.loc = loc then some d.1.value else held) none

@[simp] theorem content_nil (loc : L) : content ([] : List (Event L V × ℕ)) loc = none := rfl

theorem content_append (ws : List (Event L V × ℕ)) (d : Event L V × ℕ) (loc : L) :
    content (ws ++ [d]) loc = if d.1.loc = loc then some d.1.value else content ws loc := by
  rw [content, List.foldl_append]
  rfl

/-- A location that is written no more holds what was written last. -/
theorem content_last (ws ws' : List (Event L V × ℕ)) (d : Event L V × ℕ)
    (h : ∀ e ∈ ws', e.1.loc ≠ d.1.loc) : content (ws ++ d :: ws') d.1.loc = some d.1.value := by
  induction ws' using List.reverseRecOn with
  | nil => rw [content_append, if_pos rfl]
  | append_singleton ws' e ih =>
    rw [← List.cons_append, ← List.append_assoc, content_append,
      if_neg (h e (List.mem_append_right _ (List.mem_singleton_self e)))]
    exact ih (fun f hf => h f (List.mem_append_left _ hf))

/-- What a location holds has been written by its last write. -/
theorem exists_last {ws : List (Event L V × ℕ)} {loc : L} (h : content ws loc ≠ none) :
    ∃ before d after, ws = before ++ d :: after ∧ d.1.loc = loc ∧ ∀ e ∈ after, e.1.loc ≠ loc := by
  induction ws using List.reverseRecOn with
  | nil => exact absurd rfl h
  | append_singleton ws d ih =>
    by_cases hd : d.1.loc = loc
    · exact ⟨ws, d, [], rfl, hd, fun e he => absurd he List.not_mem_nil⟩
    · rw [content_append, if_neg hd] at h
      obtain ⟨before, e, after, rfl, hloc, hafter⟩ := ih h
      refine ⟨before, e, after ++ [d], by simp, hloc, fun f hf => ?_⟩
      rcases List.mem_append.mp hf with hf | hf
      · exact hafter f hf
      · obtain rfl := List.mem_singleton.mp hf
        exact hd

theorem exists_of_content {ws : List (Event L V × ℕ)} {loc : L} (h : content ws loc ≠ none) :
    ∃ d ∈ ws, d.1.loc = loc := by
  obtain ⟨before, d, after, rfl, hloc, -⟩ := exists_last h
  exact ⟨d, List.mem_append_right _ List.mem_cons_self, hloc⟩

theorem content_ne_none {ws : List (Event L V × ℕ)} {loc : L} {d : Event L V × ℕ} (hd : d ∈ ws)
    (hloc : d.1.loc = loc) : content ws loc ≠ none := by
  induction ws using List.reverseRecOn with
  | nil => exact absurd hd List.not_mem_nil
  | append_singleton ws e ih =>
    rw [content_append]
    split_ifs with he
    · exact Option.some_ne_none _
    · rcases List.mem_append.mp hd with hd | hd
      · exact ih hd
      · obtain rfl := List.mem_singleton.mp hd
        exact absurd hloc he

/-- Of two beginnings of a list the first is no longer than the second less its last entry, or it
extends the second. -/
theorem prefix_or_extends {α : Type} {l l' all : List α} {a : α} (h : l <+: all)
    (h' : l' ++ [a] <+: all) : l <+: l' ∨ ∃ rest, l = l' ++ [a] ++ rest := by
  rcases List.prefix_or_prefix_of_prefix h h' with hle | ⟨rest, rfl⟩
  · rcases List.prefix_concat_iff.mp hle with rfl | hle
    · exact .inr ⟨[], (List.append_nil _).symm⟩
    · exact .inl hle
  · exact .inr ⟨rest, rfl⟩

/-! ## Knowledge -/

/-- Some writes, and what happens before them, are known. -/
def Knows (past : Finset ℕ) (ws : List (Event L V × ℕ)) : Prop :=
  ∀ d ∈ ws, insert d.2 d.1.past ⊆ past

/-- Each write knows of those before it, comes after them in the order of its location, and
releases if it is not the first one there. -/
def Serial (ws : List (Event L V × ℕ)) : Prop :=
  ws.Pairwise (fun d e => insert d.2 d.1.past ⊆ e.1.past
    ∧ (d.1.loc = e.1.loc → d.1.stamp < e.1.stamp ∧ e.1.mode = .ordered))

section Knowledge

omit [DecidableEq L]

variable {past past' : Finset ℕ} {ws ws' : List (Event L V × ℕ)}

theorem Knows.mono (h : Knows past ws) (hpast : past ⊆ past') : Knows past' ws :=
  fun d hd => (h d hd).trans hpast

/-- Of two beginnings that are known the longer one is. -/
theorem Knows.longer {all : List (Event L V × ℕ)} (h : Knows past ws) (h' : Knows past ws')
    (hws : ws <+: all) (hws' : ws' <+: all) :
    ∃ longer, ws <+: longer ∧ ws' <+: longer ∧ longer <+: all ∧ Knows past longer := by
  rcases List.prefix_or_prefix_of_prefix hws hws' with hle | hle
  · exact ⟨ws', hle, List.prefix_rfl, hws', h'⟩
  · exact ⟨ws, List.prefix_rfl, hle, hws, h⟩

end Knowledge

section Serial

omit [DecidableEq L] in
theorem Serial.of_prefix {ws ws' : List (Event L V × ℕ)} (h : Serial ws) (hws : ws' <+: ws) :
    Serial ws' :=
  List.Pairwise.sublist hws.sublist h

variable {x x' : List (Event L V)} {past past' : Finset ℕ} {loc : L} {value : V} {mode : Mode}
  {stamp source : ℕ} {ws : List (Event L V × ℕ)}

/-- A store by a thread that knows of all writes. -/
theorem Serial.store (h : Serial (writes At x)) (hknows : Knows past (writes At x)) (hat : At loc)
    (hstore : store x past loc value mode stamp = some (x', past'))
    (hmode : (∃ d ∈ writes At x, d.1.loc = loc) → mode = .ordered) :
    writes At x' = writes At x ++ [(⟨loc, value, stamp, true, mode, past⟩, x.length)]
      ∧ Serial (writes At x') ∧ Knows past' (writes At x') := by
  obtain ⟨hcoherent, rfl, rfl⟩ := store_spec hstore
  have hwrites : writes At (x ++ [⟨loc, value, stamp, true, mode, past⟩])
      = writes At x ++ [(⟨loc, value, stamp, true, mode, past⟩, x.length)] := by
    rw [writes_append, if_pos ⟨rfl, hat⟩]
  refine ⟨hwrites, ?_, ?_⟩
  · rw [hwrites]
    refine List.pairwise_append.mpr ⟨h, List.pairwise_singleton _ _, fun d hd e he => ?_⟩
    obtain rfl := List.mem_singleton.mp he
    refine ⟨hknows d hd, fun hloc => ⟨?_, hmode ⟨d, hd, hloc⟩⟩⟩
    -- the thread knows the write, so its own store comes after it
    exact hcoherent d.2 (hknows d hd (Finset.mem_insert_self _ _)) d.1 (mem_writes.mp hd).1 hloc
  · rw [hwrites]
    intro d hd
    rcases List.mem_append.mp hd with hd | hd
    · exact (hknows d hd).trans (Finset.subset_insert _ _)
    · obtain rfl := List.mem_singleton.mp hd
      exact subset_rfl

omit [DecidableEq L] in
/-- Known writes of a location are followed by ones that release. -/
theorem Serial.mem_of_mode (h : Serial (writes At x)) (hws : ws <+: writes At x)
    {d e : Event L V × ℕ} (hd : d ∈ ws) (he : e ∈ writes At x) (hloc : d.1.loc = e.1.loc)
    (hmode : e.1.mode ≠ .ordered) : e ∈ ws := by
  obtain ⟨rest, hrest⟩ := hws
  rw [← hrest] at h he
  rcases List.mem_append.mp he with he | he
  · exact he
  · exact absurd (((List.pairwise_append.mp h).2.2 d hd e he).2 hloc).2 hmode

omit [DecidablePred At] in
/-- A known store that coherence lets a thread read is the last one it knows of its location. -/
theorem Serial.content_known (h : Serial ws) (hknows : Knows past ws) {w : Event L V}
    (hw : (w, source) ∈ ws) (hnumbers : ∀ e ∈ ws, x[e.2]? = some e.1)
    (hcoherent : ∀ i ∈ past, ∀ e ∈ x[i]?, e.loc = w.loc → e.stamp ≤ w.stamp) :
    content ws w.loc = some w.value := by
  obtain ⟨before, after, rfl⟩ := List.append_of_mem hw
  refine content_last before after (w, source) (fun e he hloc => ?_)
  have hmem : e ∈ before ++ (w, source) :: after :=
    List.mem_append_right _ (List.mem_cons_of_mem _ he)
  have hstamp := ((List.pairwise_cons.mp (List.pairwise_append.mp h).2.1).1 e he).2 hloc.symm
  have hknown : e.2 ∈ past := hknows e hmem (Finset.mem_insert_self _ _)
  exact absurd (hcoherent e.2 hknown e.1 (hnumbers e hmem) hloc) (not_le.mpr hstamp.1)

/-- An ordered load of a location that has been written, as far as the thread knows: it returns what
a plain memory holds after a beginning of the writes that is no shorter than what the thread knew,
and that it knows from now on. -/
theorem Serial.load (h : Serial (writes At x))
    (hload : load x past loc .ordered source = some (value, x', past')) (hat : At loc)
    (hws : ws <+: writes At x) (hknows : Knows past ws) (hwritten : content ws loc ≠ none) :
    ∃ ws', ws <+: ws' ∧ ws' <+: writes At x ∧ Knows past' ws' ∧ content ws' loc = some value := by
  obtain ⟨w, hw, hstore, rfl, rfl, hcoherent, -, rfl⟩ := load_spec hload
  have hmem : (w, source) ∈ writes At x := mem_writes.mpr ⟨hw, hstore, hat⟩
  obtain ⟨before, after, hsplit⟩ := List.append_of_mem hmem
  have hall : before ++ [(w, source)] <+: writes At x := ⟨after, by rw [hsplit]; simp⟩
  rcases prefix_or_extends hws hall with hshort | ⟨middle, rfl⟩
  · -- a store the thread did not know of: it releases, so the thread learns what was before
    rw [hsplit] at h
    have hlater := (List.pairwise_append.mp h).2.2
    obtain ⟨d, hd, hloc⟩ := exists_of_content hwritten
    have hmode := ((hlater d (hshort.subset hd) _ List.mem_cons_self).2 hloc).2
    have hlearned := (acquire_ordered hmode past source).trans (Finset.subset_insert x.length _)
    refine ⟨_, hshort.trans (List.prefix_append _ _), hall, fun e he => ?_, ?_⟩
    · rcases List.mem_append.mp he with he | he
      · exact ((hlater e he _ List.mem_cons_self).1.trans (Finset.subset_insert _ _)).trans hlearned
      · obtain rfl := List.mem_singleton.mp he
        exact hlearned
    · rw [content_append, if_pos rfl]
  · -- a store the thread knew of
    have hread : (w, source) ∈ before ++ [(w, source)] ++ middle := by simp
    refine ⟨_, List.prefix_rfl, hws, hknows.mono
      ((subset_acquire past .ordered w source).trans (Finset.subset_insert _ _)), ?_⟩
    exact (h.of_prefix hws).content_known hknows hread
      (fun e he => (mem_writes.mp (hws.subset he)).1) hcoherent

/-- A load of a location with no store that releases: it returns what has been written there, if the
thread knows of it. -/
theorem Serial.load_plain (h : Serial (writes At x))
    (hload : ReleaseAcquire.load x past loc mode source = some (value, x', past')) (hat : At loc)
    (hws : ws <+: writes At x) (hknows : Knows past ws) (hwritten : content ws loc ≠ none)
    (hplain : ∀ d ∈ writes At x, d.1.loc = loc → d.1.mode ≠ .ordered) :
    content ws loc = some value := by
  obtain ⟨w, hw, hstore, rfl, rfl, hcoherent, -, -⟩ := load_spec hload
  have hmem : (w, source) ∈ writes At x := mem_writes.mpr ⟨hw, hstore, hat⟩
  obtain ⟨d, hd, hloc⟩ := exists_of_content hwritten
  have hread := h.mem_of_mode hws hd hmem hloc (hplain _ hmem rfl)
  exact (h.of_prefix hws).content_known hknows hread
    (fun e he => (mem_writes.mp (hws.subset he)).1) hcoherent

/-- A location that has been written can be loaded, by whatever thread: its last write can be
read. -/
theorem Serial.exists_load (h : Serial (writes At x)) (hsourced : Sourced x) (hat : At loc)
    (hwritten : content (writes At x) loc ≠ none) (past : Finset ℕ) (mode : Mode) :
    ∃ source, (ReleaseAcquire.load x past loc mode source).isSome = true := by
  obtain ⟨before, d, after, hsplit, rfl, hafter⟩ := exists_last hwritten
  have hmem : d ∈ writes At x := hsplit ▸ List.mem_append_right _ List.mem_cons_self
  obtain ⟨hd, hstore, -⟩ := mem_writes.mp hmem
  rw [hsplit] at h
  -- no write of the location comes after it
  have hle : ∀ e ∈ x, e.loc = d.1.loc → e.stamp ≤ d.1.stamp := by
    intro e he hloc
    obtain ⟨f, hf, hfstore, hfloc, hstamp⟩ := hsourced e he
    obtain ⟨i, hi⟩ := List.getElem?_of_mem hf
    have hwrite : (f, i) ∈ writes At x :=
      mem_writes.mpr ⟨hi, hfstore, by rw [hfloc, hloc]; exact hat⟩
    rw [← hstamp]
    rw [hsplit] at hwrite
    rcases List.mem_append.mp hwrite with hbefore | hrest
    · exact (((List.pairwise_append.mp h).2.2 _ hbefore _ List.mem_cons_self).2
        (hfloc.trans hloc)).1.le
    · rcases List.mem_cons.mp hrest with rfl | hrest
      · exact le_rfl
      · exact absurd (hfloc.trans hloc) (hafter _ hrest)
  refine ⟨d.2, ?_⟩
  rw [ReleaseAcquire.load, hd]
  dsimp only
  rw [if_pos ⟨hstore, rfl, fun i _ e he => hle e (List.mem_of_getElem? he)⟩]
  rfl

end Serial

end BrzMetrics.ReleaseAcquire
