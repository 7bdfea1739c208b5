/-
A traversal, one load or read at a time.

`Registry::for_each_meta` (`src/src/registry.rs`) and `ScalarRegistry::for_each`
(`src/src/scalar.rs`) go from shard to shard without taking a mutex: load the
index, then for each of its chunks load the published length and read the entries
below it. `Visitor.step` is one such load or read. A visitor that would read an
entry that is not there, or fail the assertion in `MetaChunk::get`, stops in
`fault`.

On shards that nobody changes the steps amount to `for_each_meta` and `for_each`
(`for_each_meta_steps`, `for_each_steps`). Where writers are at work, `Visitor.Inv`
says how many entries of each shard a visitor has and how many it is due; it is
kept by the visitor's own steps and by everything that only adds to the shards.
-/
import BrzMetrics.Registry
import BrzMetrics.ChunkShape

set_option autoImplicit false

namespace BrzMetrics

open ChunkLog

/-! ## A traversal, step by step -/

/-- `MetaChunk::get` on the chunk behind `arc`, with its debug assertion. -/
def Chunks.read {T : Type} (self : Chunks T) (arc offset : ℕ) : Option T :=
  if offset < (self.deref arc).published_len then (self.deref arc).get offset else none

/-- What a traversal does next with its current shard. -/
inductive VisitorPc where
  /-- Load the index. -/
  | start
  /-- Load the published length of the next of the remaining chunks. -/
  | chunks (rest : List ℕ)
  /-- Read the entries of a chunk from `offset` up to the loaded length. -/
  | reading (arc len offset : ℕ) (rest : List ℕ)
  | fault
deriving DecidableEq

/-- A traversal: the shard it is at and the entries it has called its closure with. -/
structure Visitor (T : Type) where
  shard : ℕ
  pc : VisitorPc
  visited : Fin SHARD_COUNT → List T

namespace Visitor

variable {T : Type}

/-- A traversal that has not begun. -/
def new : Visitor T := { shard := 0, pc := .start, visited := fun _ => [] }

/-- The closure is called with an entry of the given shard. -/
def visit (shard : Fin SHARD_COUNT) (entry : T) (self : Visitor T) : Visitor T :=
  { self with visited := Function.update self.visited shard (self.visited shard ++ [entry]) }

/-- One step of a traversal. -/
def step (stores : Fin SHARD_COUNT → Chunks T) (self : Visitor T) : Option (Visitor T) :=
  if h : self.shard < SHARD_COUNT then
    let shard : Fin SHARD_COUNT := ⟨self.shard, h⟩
    match self.pc with
    | .start => some { self with pc := .chunks (stores shard).index }
    | .chunks [] => some { self with shard := self.shard + 1, pc := .start }
    | .chunks (arc :: rest) =>
      some { self with pc := .reading arc ((stores shard).deref arc).published_len 0 rest }
    | .reading arc len offset rest =>
      if offset < len then
        match (stores shard).read arc offset with
        | some entry =>
          some (visit shard entry { self with pc := .reading arc len (offset + 1) rest })
        | none => some { self with pc := .fault }
      else some { self with pc := .chunks rest }
    | .fault => none
  else none

/-- The traversal is over. -/
def Done (self : Visitor T) : Prop := self.shard = SHARD_COUNT

/-- The traversal has left the shard behind. -/
def Finished (self : Visitor T) (i : Fin SHARD_COUNT) : Prop := i.val < self.shard

/-- The traversal has yet to load the shard's index. -/
def Pending (self : Visitor T) (i : Fin SHARD_COUNT) : Prop :=
  self.shard < i.val ∨ self.shard = i.val ∧ self.pc = .start

/-- A traversal that has not begun has yet to load all indices. -/
theorem pending_new {T : Type} (i : Fin SHARD_COUNT) : (Visitor.new : Visitor T).Pending i := by
  rcases Nat.eq_zero_or_pos i.val with hi | hi
  · exact .inr ⟨hi.symm, rfl⟩
  · exact .inl hi

end Visitor

/-! ## A traversal that nothing disturbs -/

namespace Visitor

variable {T : Type} {stores : Fin SHARD_COUNT → Chunks T}

/-- The traversal gets from one position to the other with the shards as they are. -/
def Reaches (stores : Fin SHARD_COUNT → Chunks T) : Visitor T → Visitor T → Prop :=
  Relation.ReflTransGen (fun v w => v.step stores = some w)

/-- Reading a chunk to its published length. -/
theorem reaches_read {i : Fin SHARD_COUNT} {arc len : ℕ} {rest : List ℕ}
    (hlen : ((stores i).deref arc).published_len = len) {m : ℕ} :
    ∀ {o : ℕ} {es : List T} {visited : Fin SHARD_COUNT → List T}, o + m = len →
      (List.range' o m).mapM ((stores i).deref arc).get = some es →
      Reaches stores ⟨i, .reading arc len o rest, visited⟩
        ⟨i, .chunks rest, Function.update visited i (visited i ++ es)⟩ := by
  induction m with
  | zero =>
    intro o es visited ho hes
    obtain rfl : es = [] := (Option.some.inj hes).symm
    refine .single ?_
    rw [step, dif_pos i.isLt]
    simp [← ho]
  | succ m ih =>
    intro o es visited ho hes
    rw [List.range'_succ, List.mapM_cons] at hes
    obtain ⟨e, he, hes⟩ := Option.bind_eq_some_iff.mp hes
    obtain ⟨es', hes', heq⟩ := Option.bind_eq_some_iff.mp hes
    obtain rfl : e :: es' = es := Option.some.inj heq
    have hread : (stores i).read arc o = some e := by
      -- the entry is there: its offset is below the published length
      rw [Chunks.read, if_pos (by omega), he]
    have hstep : step stores ⟨i, .reading arc len o rest, visited⟩
        = some (visit i e ⟨i, .reading arc len (o + 1) rest, visited⟩) := by
      rw [step, dif_pos i.isLt]
      simp only [Fin.eta, hread, if_pos (show o < len by omega)]
    have hrest := @ih (o + 1) es' (Function.update visited i (visited i ++ [e])) (by omega) hes'
    rw [Function.update_self, Function.update_idem, List.append_assoc,
      List.singleton_append] at hrest
    exact .head hstep hrest

/-- Going through chunks. -/
theorem reaches_chunks {i : Fin SHARD_COUNT} {rest : List ℕ} :
    ∀ {parts : List (List T)} {visited : Fin SHARD_COUNT → List T},
      rest.mapM (fun arc =>
        (List.range ((stores i).deref arc).published_len).mapM ((stores i).deref arc).get)
          = some parts →
      Reaches stores ⟨i, .chunks rest, visited⟩
        ⟨i, .chunks [], Function.update visited i (visited i ++ parts.flatten)⟩ := by
  induction rest with
  | nil =>
    intro parts visited hparts
    obtain rfl : parts = [] := (Option.some.inj hparts).symm
    rw [List.flatten_nil, List.append_nil, Function.update_eq_self]
    exact .refl
  | cons arc rest ih =>
    intro parts visited hparts
    rw [List.mapM_cons] at hparts
    obtain ⟨es, hes, hparts⟩ := Option.bind_eq_some_iff.mp hparts
    obtain ⟨parts', hparts', heq⟩ := Option.bind_eq_some_iff.mp hparts
    obtain rfl : es :: parts' = parts := Option.some.inj heq
    rw [List.range_eq_range'] at hes
    have hstep : step stores ⟨i, .chunks (arc :: rest), visited⟩
        = some ⟨i, .reading arc ((stores i).deref arc).published_len 0 rest, visited⟩ := by
      rw [step, dif_pos i.isLt]
    -- the first chunk is read to its end, then the others
    have hrest := @ih parts' (Function.update visited i (visited i ++ es)) hparts'
    rw [Function.update_self, Function.update_idem, List.append_assoc,
      ← List.flatten_cons] at hrest
    exact .head hstep ((reaches_read rfl (Nat.zero_add _) hes).trans hrest)

/-- The rest of a traversal, shard by shard. -/
theorem reaches_done {logs : Fin SHARD_COUNT → List T}
    (hlogs : ∀ i, (stores i).for_each = some (logs i)) {m : ℕ} :
    ∀ {k : ℕ}, k + m = SHARD_COUNT → Reaches stores
      ⟨k, .start, fun i => if i.val < k then logs i else []⟩ ⟨SHARD_COUNT, .start, logs⟩ := by
  induction m with
  | zero =>
    intro k hk
    obtain rfl : k = SHARD_COUNT := hk
    simp only [Fin.is_lt, if_true]
    exact .refl
  | succ m ih =>
    intro k hk
    have hlt : k < SHARD_COUNT := by omega
    have hlog := hlogs ⟨k, hlt⟩
    rw [Chunks.for_each] at hlog
    obtain ⟨parts, hparts, heq⟩ := Option.bind_eq_some_iff.mp hlog
    have heq : parts.flatten = logs ⟨k, hlt⟩ := Option.some.inj heq
    have hchunks := @reaches_chunks T stores ⟨k, hlt⟩ _ parts
      (fun i => if i.val < k then logs i else []) hparts
    -- after shard `k` the shards up to it have been visited
    have hvisited : Function.update (fun i : Fin SHARD_COUNT => if i.val < k then logs i else [])
        ⟨k, hlt⟩ ([] ++ parts.flatten) = fun i => if i.val < k + 1 then logs i else [] := by
      funext i
      by_cases hi : i = ⟨k, hlt⟩
      · subst hi
        rw [Function.update_self, heq, if_pos (Nat.lt_succ_self k), List.nil_append]
      · have hne : i.val ≠ k := fun h => hi (Fin.ext h)
        rw [Function.update_of_ne hi]
        exact if_congr (by omega) rfl rfl
    simp only [lt_irrefl, if_false, hvisited] at hchunks
    -- load the index, go through its chunks, and move on to the next shard
    have hload : step stores ⟨k, .start, fun i => if i.val < k then logs i else []⟩
        = some ⟨k, .chunks (stores ⟨k, hlt⟩).index, fun i => if i.val < k then logs i else []⟩ := by
      rw [step, dif_pos hlt]
    have hnext : step stores ⟨k, .chunks [], fun i => if i.val < k + 1 then logs i else []⟩
        = some ⟨k + 1, .start, fun i => if i.val < k + 1 then logs i else []⟩ := by
      rw [step, dif_pos hlt]
    exact .head hload (hchunks.trans (.head hnext (ih (show k + 1 + m = SHARD_COUNT by omega))))

end Visitor

/-- A traversal that nothing disturbs visits what `for_each_meta` visits. -/
theorem Registry.for_each_meta_steps {r : Registry} {logs : Fin SHARD_COUNT → List MetricMeta}
    (hlogs : ∀ i, (r.shards i).store.for_each = some (logs i)) :
    Visitor.Reaches (fun i => (r.shards i).store) Visitor.new ⟨SHARD_COUNT, .start, logs⟩
      ∧ r.for_each_meta = some ((List.finRange SHARD_COUNT).map logs).flatten := by
  refine ⟨Visitor.reaches_done hlogs (Nat.zero_add _), ?_⟩
  rw [Registry.for_each_meta, Chunks.mapM_eq_some (fun i _ => hlogs i)]
  rfl

/-- The same for `ScalarRegistry::for_each`. -/
theorem ScalarRegistry.for_each_steps {r : ScalarRegistry}
    {logs : Fin SHARD_COUNT → List ScalarMeta}
    (hlogs : ∀ i, (r.shards i).store.for_each = some (logs i)) :
    Visitor.Reaches (fun i => (r.shards i).store) Visitor.new ⟨SHARD_COUNT, .start, logs⟩
      ∧ r.for_each = some ((List.finRange SHARD_COUNT).map logs).flatten := by
  refine ⟨Visitor.reaches_done hlogs (Nat.zero_add _), ?_⟩
  rw [ScalarRegistry.for_each, Chunks.mapM_eq_some (fun i _ => hlogs i)]
  rfl

/-! ## The invariant of a traversal -/

/-- Where a visitor stands in a shard of which it has `n` entries and is due `b`. -/
def VisitorPc.At (p : Progress) (b n : ℕ) : VisitorPc → Prop
  | .start => n = 0
  | .chunks rest => ∃ d c, rest = List.range' c (d - c) ∧ Before CHUNK_SIZE p b d c n
  | .reading arc len offset rest => ∃ d, rest = List.range' (arc + 1) (d - (arc + 1))
      ∧ Within CHUNK_SIZE p b d arc len offset n
  | .fault => False

theorem VisitorPc.At.mono {pc : VisitorPc} {p q : Progress} {b n : ℕ} (h : pc.At p b n)
    (hle : p.Le q) : pc.At q b n := by
  cases pc with
  | start => exact h
  | chunks rest =>
    obtain ⟨d, c, hrest, hbefore⟩ := h
    exact ⟨d, c, hrest, hbefore.mono hle⟩
  | reading arc len offset rest =>
    obtain ⟨d, hrest, hwithin⟩ := h
    exact ⟨d, hrest, hwithin.mono hle⟩
  | fault => exact h

namespace Visitor

variable {T : Type}

/-- What holds of a visitor that is due at least `due i` entries of shard `i`. -/
structure Inv (due : Fin SHARD_COUNT → ℕ) (orders : Fin SHARD_COUNT → List T)
    (ps : Fin SHARD_COUNT → Progress) (v : Visitor T) : Prop where
  shard_le : v.shard ≤ SHARD_COUNT
  due_le : ∀ i, due i ≤ (ps i).visible CHUNK_SIZE
  visited : ∀ i, v.visited i <+: orders i
  length_le : ∀ i, (v.visited i).length ≤ (ps i).visible CHUNK_SIZE
  behind : ∀ i : Fin SHARD_COUNT, i.val < v.shard → due i ≤ (v.visited i).length
  here : ∀ i : Fin SHARD_COUNT, i.val = v.shard → v.pc.At (ps i) (due i) (v.visited i).length
  ahead : ∀ i : Fin SHARD_COUNT, v.shard < i.val → v.visited i = []
  ended : v.shard = SHARD_COUNT → v.pc = .start

section Inv

variable {due due' : Fin SHARD_COUNT → ℕ} {orders orders' : Fin SHARD_COUNT → List T}
  {ps ps' : Fin SHARD_COUNT → Progress} {v v' : Visitor T}

theorem inv_new (hdue : ∀ i, due i ≤ (ps i).visible CHUNK_SIZE) :
    (new : Visitor T).Inv due orders ps where
  shard_le := Nat.zero_le _
  due_le := hdue
  visited := fun _ => List.nil_prefix
  length_le := fun _ => Nat.zero_le _
  behind := fun _ h => absurd h (Nat.not_lt_zero _)
  here := fun _ _ => rfl
  ahead := fun _ _ => rfl
  ended := fun _ => rfl

/-- Others may make progress. -/
theorem Inv.mono (h : v.Inv due orders ps) (hps : ∀ i, (ps i).Le (ps' i))
    (horders : ∀ i, orders i <+: orders' i) : v.Inv due orders' ps' :=
  { h with
    due_le := fun i => (h.due_le i).trans (hps i).visible_le
    visited := fun i => (h.visited i).trans (horders i)
    length_le := fun i => (h.length_le i).trans (hps i).visible_le
    here := fun i hi => (h.here i hi).mono (hps i) }

/-- What is visible of a shard whose index is yet to be loaded is due. -/
theorem Inv.raise (h : v.Inv due orders ps) (hdue : ∀ i, due' i ≤ (ps i).visible CHUNK_SIZE)
    (hpending : ∀ i, due' i = due i ∨ v.Pending i) : v.Inv due' orders ps :=
  { h with
    due_le := hdue
    behind := by
      intro i hi
      rcases hpending i with heq | hlt | ⟨heq, -⟩
      · rw [heq]
        exact h.behind i hi
      · omega
      · omega
    here := by
      intro i hi
      have hat := h.here i hi
      rcases hpending i with heq | hlt | ⟨-, hpc⟩
      · rwa [heq]
      · omega
      · -- at the start of a shard nothing is said about what is due
        rw [hpc] at hat ⊢
        exact hat }

/-- A step within a shard that calls nothing. -/
theorem Inv.goto (h : v.Inv due orders ps) (hv : v.shard < SHARD_COUNT) {pc : VisitorPc}
    (hpc : pc.At (ps ⟨v.shard, hv⟩) (due ⟨v.shard, hv⟩) (v.visited ⟨v.shard, hv⟩).length) :
    ({ v with pc := pc } : Visitor T).Inv due orders ps :=
  { h with
    here := by
      rintro i hi
      obtain rfl : i = ⟨v.shard, hv⟩ := Fin.ext hi
      exact hpc
    ended := fun hended => absurd hended hv.ne }

/-- A step to the next shard. -/
theorem Inv.next (h : v.Inv due orders ps) (hv : v.shard < SHARD_COUNT)
    (hdue : due ⟨v.shard, hv⟩ ≤ (v.visited ⟨v.shard, hv⟩).length) :
    ({ v with shard := v.shard + 1, pc := .start } : Visitor T).Inv due orders ps :=
  { h with
    shard_le := hv
    behind := by
      intro i hi
      rcases Nat.lt_succ_iff_lt_or_eq.mp hi with hi | hi
      · exact h.behind i hi
      · obtain rfl : i = ⟨v.shard, hv⟩ := Fin.ext hi
        exact hdue
    here := by
      intro i hi
      have hi : i.val = v.shard + 1 := hi
      exact List.length_eq_zero_iff.mpr (h.ahead i (by omega))
    ahead := by
      intro i hi
      have hi : v.shard + 1 < i.val := hi
      exact h.ahead i (by omega)
    ended := fun _ => rfl }

/-- A step that calls the closure with the next entry of the order. -/
theorem Inv.visit (h : v.Inv due orders ps) (hv : v.shard < SHARD_COUNT) {entry : T}
    (hentry : (orders ⟨v.shard, hv⟩)[(v.visited ⟨v.shard, hv⟩).length]? = some entry)
    (hvisible : (v.visited ⟨v.shard, hv⟩).length < (ps ⟨v.shard, hv⟩).visible CHUNK_SIZE)
    {pc : VisitorPc} (hpc : pc.At (ps ⟨v.shard, hv⟩) (due ⟨v.shard, hv⟩)
      ((v.visited ⟨v.shard, hv⟩).length + 1)) :
    (Visitor.visit ⟨v.shard, hv⟩ entry { v with pc := pc }).Inv due orders ps := by
  have hhere : (Visitor.visit ⟨v.shard, hv⟩ entry { v with pc := pc }).visited ⟨v.shard, hv⟩
      = v.visited ⟨v.shard, hv⟩ ++ [entry] := Function.update_self _ _ _
  have hother : ∀ i, i ≠ ⟨v.shard, hv⟩ →
      (Visitor.visit ⟨v.shard, hv⟩ entry { v with pc := pc }).visited i = v.visited i :=
    fun i hi => Function.update_of_ne hi _ _
  refine ⟨h.shard_le, h.due_le, ?_, ?_, ?_, ?_, ?_, fun hended => absurd hended hv.ne⟩
  · -- what was visited is followed in the order by the entry
    refine (Function.forall_update_iff v.visited (fun i visited => visited <+: orders i)).mpr
      ⟨?_, fun i _ => h.visited i⟩
    obtain ⟨rest, hrest⟩ := h.visited ⟨v.shard, hv⟩
    rw [← hrest, List.getElem?_append_right (le_refl _), Nat.sub_self] at hentry
    obtain ⟨rest', rfl⟩ : ∃ rest', rest = entry :: rest' := by
      cases rest with
      | nil => simp at hentry
      | cons a rest' => exact ⟨rest', by simpa using hentry⟩
    exact ⟨rest', by rw [List.append_assoc, List.singleton_append, hrest]⟩
  · refine (Function.forall_update_iff v.visited (fun i visited =>
      visited.length ≤ (ps i).visible CHUNK_SIZE)).mpr ⟨?_, fun i _ => h.length_le i⟩
    rw [List.length_append, List.length_singleton]
    exact hvisible
  · intro i hi
    have hi : i.val < v.shard := hi
    rw [hother i (fun heq => by simp [heq] at hi)]
    exact h.behind i hi
  · intro i hi
    obtain rfl : i = ⟨v.shard, hv⟩ := Fin.ext hi
    rw [hhere, List.length_append, List.length_singleton]
    exact hpc
  · intro i hi
    have hi : v.shard < i.val := hi
    rw [hother i (fun heq => by simp [heq] at hi)]
    exact h.ahead i hi

end Inv

/-- The entry a visitor in the middle of a chunk reads is there, and is the next of the order. -/
theorem read_within {s : Chunks T} {order : List T} {p : Progress}
    {b d arc len offset n : ℕ} (hshape : s.Shape (order.take p.written) p)
    (hg : Good CHUNK_SIZE p) (h : Within CHUNK_SIZE p b d arc len offset n)
    (ho : offset < len) : ∃ entry, s.read arc offset = some entry ∧ order[n]? = some entry := by
  obtain ⟨hlen, hvisible⟩ := h.sees ho
  have hchunk : arc < p.chunks := h.chunk.trans_le (h.indexed.trans hg.indexed_le)
  have hwritten : n < p.written :=
    hvisible.trans_le ((min_le_left _ _).trans hg.published_le)
  have horder : n < order.length := by
    have hcount := hshape.written
    rw [List.length_take] at hcount
    omega
  have hget := hshape.entries arc hchunk offset (hlen.trans_le (min_le_left _ _))
  rw [← h.taken, List.getElem?_take_of_lt hwritten, List.getElem?_eq_getElem horder] at hget
  refine ⟨order[n], ?_, List.getElem?_eq_getElem horder⟩
  rw [Chunks.read, hshape.lens arc hchunk, if_pos hlen, hget]

/-- A visitor's own step: the index, the published lengths and the entries are those of shards
with the given progress. -/
theorem Inv.step {due : Fin SHARD_COUNT → ℕ} {orders : Fin SHARD_COUNT → List T}
    {ps : Fin SHARD_COUNT → Progress} {stores : Fin SHARD_COUNT → Chunks T} {v v' : Visitor T}
    (h : v.Inv due orders ps)
    (hshape : ∀ i, (stores i).Shape ((orders i).take (ps i).written) (ps i))
    (hg : ∀ i, Good CHUNK_SIZE (ps i)) (hs : v.step stores = some v') :
    v'.Inv due orders ps := by
  unfold Visitor.step at hs
  by_cases hv : v.shard < SHARD_COUNT
  swap
  · simp [hv] at hs
  rw [dif_pos hv] at hs
  dsimp only at hs
  have hat := h.here ⟨v.shard, hv⟩ rfl
  have hdue := h.due_le ⟨v.shard, hv⟩
  rcases hpc : v.pc with _ | (_ | ⟨arc, rest⟩) | ⟨arc, len, offset, rest⟩ | _
  · -- load the index: its chunks are the first ones of the shard, in order
    simp only [hpc, Option.some.injEq] at hs hat
    subst hs
    refine h.goto hv ⟨(ps ⟨v.shard, hv⟩).indexed, 0, ?_, ?_⟩
    · rw [(hshape ⟨v.shard, hv⟩).index, List.range_eq_range', Nat.sub_zero]
    · rw [show (v.visited ⟨v.shard, hv⟩).length = 0 from hat]
      exact before_first hdue
  · simp only [hpc, Option.some.injEq] at hs hat
    subst hs
    obtain ⟨d, c, hrest, hbefore⟩ := hat
    -- no chunk is left: all that was due of this shard has been visited
    refine h.next hv (hbefore.last ?_)
    have hzero : d - c = 0 := (List.range'_eq_nil_iff.mp hrest.symm)
    have := hbefore.chunk
    omega
  · simp only [hpc, Option.some.injEq] at hs hat
    subst hs
    obtain ⟨d, c, hrest, hbefore⟩ := hat
    -- load the published length of the next chunk, which covers what is due of the chunk
    obtain ⟨m, hm⟩ : ∃ m, d - c = m + 1 := by
      cases hdc : d - c with
      | zero => simp [hdc] at hrest
      | succ m => exact ⟨m, rfl⟩
    rw [hm, List.range'_succ, List.cons.injEq] at hrest
    obtain ⟨rfl, rfl⟩ := hrest
    have hc : arc < d := by omega
    have hchunk := hc.trans_le (hbefore.indexed.trans (hg ⟨v.shard, hv⟩).indexed_le)
    refine h.goto hv ⟨d, by rw [show d - (arc + 1) = m by omega], ?_⟩
    rw [(hshape ⟨v.shard, hv⟩).lens arc hchunk]
    exact hbefore.enter (hg _) hdue hc
  · obtain ⟨d, hrest, hwithin⟩ := hpc ▸ hat
    simp only [hpc] at hs
    by_cases ho : offset < len
    · -- the next entry of the chunk was published before its length was loaded
      obtain ⟨entry, hread, hentry⟩ := read_within (hshape _) (hg _) hwithin ho
      rw [if_pos ho, hread] at hs
      obtain rfl := Option.some.inj hs
      exact h.visit hv hentry (hwithin.sees ho).2 ⟨d, hrest, hwithin.next ho⟩
    · rw [if_neg ho] at hs
      obtain rfl := Option.some.inj hs
      -- the end of the chunk
      exact h.goto hv ⟨d, arc + 1, hrest, hwithin.leave (not_lt.mp ho)⟩
  · rw [hpc] at hat
    -- the invariant rules a fault out
    exact hat.elim

end Visitor

end BrzMetrics
