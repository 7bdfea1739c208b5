/-
Publication is sound in release/acquire memory.

`WeakTraversals.Inv` holds after every turn of every schedule. A turn adds accesses to
the memory and knowledge to a thread, and takes nothing away, so what threads and
traversals rely on stays true; what remains to be shown of each turn is that its own
accesses are in order. `WeakTraversals.Sound` and `WeakTraversals.Complete` collect
what follows.
-/
import BrzMetrics.Atomicity
import BrzMetrics.WeakTraversals

set_option autoImplicit false

namespace BrzMetrics

open ChunkLog KeyedStore ReleaseAcquire

namespace WeakTraversals

/-! ## The start -/

section Start

variable {T : Type}

/-- The initialization of an index. -/
def initial (T : Type) (i : Fin SHARD_COUNT) : Event Loc (Cell T) :=
  ⟨.index i, .index [], 0, true, .plain, ∅⟩

theorem initial_getElem {j : ℕ} {e : Event Loc (Cell T)} (h : (initial_memory T)[j]? = some e) :
    ∃ i : Fin SHARD_COUNT, i.val = j ∧ e = initial T i := by
  obtain ⟨hlt, heq⟩ := List.getElem?_eq_some_iff.mp h
  rw [initial_memory, List.length_map, List.length_finRange] at hlt
  refine ⟨⟨j, hlt⟩, rfl, ?_⟩
  rw [← heq]
  simp [initial_memory, initial]

/-- A shard starts with one write, the empty index. -/
theorem initial_writes (i : Fin SHARD_COUNT) :
    shard_writes i (initial_memory T) = [(initial T i, i.val)] := by
  have hzip : (initial_memory T).zipIdx
      = (List.finRange SHARD_COUNT).map (fun j => (initial T j, j.val)) := by
    refine List.ext_getElem (by simp [initial_memory]) (fun j _ _ => ?_)
    simp [initial_memory, initial]
  have hone : (List.finRange SHARD_COUNT).filter (fun j => decide (j = i)) = [i] := by
    rw [List.filter_eq, List.count_eq_one_of_mem (List.nodup_finRange _) (List.mem_finRange i)]
    rfl
  have hguarded : ((fun d : Event Loc (Cell T) × ℕ => d.1.is_store && decide (d.1.loc.Guarded i))
      ∘ fun j => (initial T j, j.val)) = fun j => decide (j = i) := rfl
  rw [shard_writes, writes, hzip, List.filter_map, hguarded, hone]
  rfl

theorem initial_ne (i : Fin SHARD_COUNT) : shard_writes i (initial_memory T) ≠ [] := by
  rw [initial_writes]
  exact List.cons_ne_nil _ _

/-- All beginnings of that show an empty log. -/
theorem initial_progress {i : Fin SHARD_COUNT} {ws : List (Event Loc (Cell T) × ℕ)}
    (hws : ws <+: [(initial T i, i.val)]) : Agrees (progress_of ws) (settled CHUNK_SIZE 0) := by
  have hzero : chunkCount CHUNK_SIZE 0 = 0 := chunkCount_zero CHUNK_SIZE_pos
  rcases List.prefix_cons_iff.mp hws with rfl | ⟨rest, rfl, hrest⟩
  · exact Agrees.refl _
  · obtain rfl := List.prefix_nil.mp hrest
    constructor <;> simp [progress_of, initial, Cell.step, Progress.apply, settled]

theorem initial_safe : Safe (initial_memory T) where
  race_free := by
    rintro j e he i d hij hd ⟨hloc, -⟩
    obtain ⟨k, rfl, rfl⟩ := initial_getElem he
    obtain ⟨k', rfl, rfl⟩ := initial_getElem hd
    rw [Loc.index.inj hloc] at hij
    exact absurd hij (lt_irrefl _)
  sourced := by
    intro e he
    obtain ⟨j, hj⟩ := List.getElem?_of_mem he
    obtain ⟨i, -, rfl⟩ := initial_getElem hj
    exact ⟨_, he, rfl, rfl, rfl⟩
  plain_loads := by
    intro e he hload
    obtain ⟨j, hj⟩ := List.getElem?_of_mem he
    obtain ⟨i, -, rfl⟩ := initial_getElem hj
    exact Bool.noConfusion hload

theorem initial_shard (i : Fin SHARD_COUNT) :
    ShardMemory i (initial_memory T) [] Chunks.new (settled CHUNK_SIZE 0) := by
  have hnewest : Newest i (Chunks.new : Chunks T) [(initial T i, i.val)] := by
    constructor <;> simp [content, initial, Chunks.new, Chunks.deref]
  have hmem : ∀ d ∈ shard_writes i (initial_memory T), d.1.loc = .index i := by
    rw [initial_writes]
    intro d hd
    rw [List.mem_singleton.mp hd]
    rfl
  constructor
  case serial => rw [initial_writes]; exact List.pairwise_singleton _ _
  case newest => rw [initial_writes]; exact hnewest
  case current => rw [initial_writes]; exact initial_progress List.prefix_rfl
  case shown =>
    rw [initial_writes]
    intro ws hne hws
    rcases List.prefix_cons_iff.mp hws with rfl | ⟨rest, rfl, hrest⟩
    · exact absurd rfl hne
    · obtain rfl := List.prefix_nil.mp hrest
      exact hnewest.shown Chunks.shape_new (good_settled CHUNK_SIZE_pos 0) (initial_progress hws)
  case grows =>
    rw [initial_writes]
    intro ws ws' hws hws'
    exact (initial_progress (hws.trans hws')).le.trans (initial_progress hws').symm.le
  case plain =>
    intro d hd arc offset hloc
    exact Loc.noConfusion ((hmem d hd).symm.trans hloc)
  case blocks =>
    intro d hd arc hloc
    exact Loc.noConfusion ((hmem d hd).symm.trans hloc)
  case slots =>
    intro e he block hloc
    obtain ⟨j, hj⟩ := List.getElem?_of_mem he
    obtain ⟨k, -, rfl⟩ := initial_getElem hj
    exact Loc.noConfusion hloc

/-- Every thread knows the initial indexes. -/
theorem initial_knows (i : Fin SHARD_COUNT) :
    Knows (Finset.range SHARD_COUNT) (shard_writes i (initial_memory T)) := by
  rw [initial_writes]
  intro d hd
  rw [List.mem_singleton.mp hd]
  intro j hj
  rcases Finset.mem_insert.mp hj with rfl | hj
  · exact Finset.mem_range.mpr i.isLt
  · exact absurd hj (Finset.notMem_empty j)

end Start

variable {σ T C K : Type} [ShardKind σ T C K]

theorem inv_new (owner : ℕ → ℕ) : (new : WeakTraversals σ T K).Inv owner (fun _ _ => 0)
    (fun _ => settled CHUNK_SIZE 0) where
  lanes := Lane.inv_new
  shared := ⟨initial_safe, fun i => by
    change ShardMemory i (initial_memory T) [] (ShardKind.store (ShardKind.new i : σ)) _
    rw [ShardKind.store_new]
    exact initial_shard i⟩
  locked := initial_knows
  first _ i := ⟨_, initial_ne i, List.prefix_rfl, initial_knows i, Nat.zero_le _⟩
  handles _ _ h := absurd h List.not_mem_nil
  visitors _ := ⟨fun i => shard_writes i (initial_memory T), initial_ne, fun _ => List.prefix_rfl,
    initial_knows, Visitor.inv_new (fun _ => Nat.zero_le _)⟩
  visited _ _ _ h := absurd h (Nat.not_lt_zero _)

/-! ## Turns -/

/-- Memory, knowledge and handles only become more. -/
structure Grows (s s' : WeakTraversals σ T K) : Prop where
  memory : s.memory <+: s'.memory
  past : ∀ thread, s.past thread ⊆ s'.past thread
  handles : ∀ thread, s.handles thread ⊆ s'.handles thread
  orders : ∀ i, (s.lanes i).order <+: (s'.lanes i).order

section Steps

variable {owner : ℕ → ℕ} {due : ℕ → Fin SHARD_COUNT → ℕ} {ps ps' : Fin SHARD_COUNT → Progress}
  {s s' s'' : WeakTraversals σ T K}

omit [ShardKind σ T C K] in
theorem Grows.refl (s : WeakTraversals σ T K) : s.Grows s :=
  ⟨List.prefix_rfl, fun _ => subset_rfl, fun _ => List.Subset.refl _, fun _ => List.prefix_rfl⟩

omit [ShardKind σ T C K] in
theorem Grows.trans (h : s.Grows s') (h' : s'.Grows s'') : s.Grows s'' where
  memory := h.memory.trans h'.memory
  past thread := (h.past thread).trans (h'.past thread)
  handles thread := List.Subset.trans (h.handles thread) (h'.handles thread)
  orders i := (h.orders i).trans (h'.orders i)

/-- What was relied on stays true; what is left is what the turn itself has done. -/
theorem Inv.grow (h : s.Inv owner due ps) (hgrows : s.Grows s')
    (hlanes : ∀ i, (s'.lanes i).Inv (ps' i))
    (hshared : Shared s'.memory (fun i => (s'.lanes i).order)
      (fun i => ShardKind.store (s'.lanes i).shard) ps')
    (hlocked : ∀ i, Knows (s'.knower i) (shard_writes i s'.memory))
    (hhandles : ∀ thread, ∀ handle ∈ s'.handles thread, handle ∈ s.handles thread
      ∨ Shows s'.memory (s'.past thread) handle.1 (handle.2 + 1))
    (hvisitors : ∀ v, s'.visitors v = s.visitors v
      ∨ ∃ seen, Stepped (due v) (fun i => (s'.lanes i).order) s'.memory (s'.past (owner v))
          (s.visitors v) (s'.visitors v) seen ∧ seen ⊆ s'.handles (owner v)) :
    s'.Inv owner due ps' where
  lanes := hlanes
  shared := hshared
  locked := hlocked
  first thread i := (h.first thread i).mono hgrows.memory (hgrows.past thread)
  handles thread handle hhandle := by
    rcases hhandles thread handle hhandle with hold | hnew
    · exact (h.handles thread handle hold).mono hgrows.memory (hgrows.past thread)
    · exact hnew
  visitors v := by
    rcases hvisitors v with heq | ⟨seen, hstepped, -⟩
    · obtain ⟨known, hfollows⟩ := h.visitors v
      rw [heq]
      exact ⟨known, hfollows.mono hgrows.memory (hgrows.past _) hgrows.orders⟩
    · exact hstepped.follows
  visited v i n hn := by
    rcases hvisitors v with heq | ⟨seen, hstepped, hseen⟩
    · rw [heq] at hn
      exact hgrows.handles _ (h.visited v i n hn)
    · rcases hstepped.visited i n hn with hold | hnew
      · exact hgrows.handles _ (h.visited v i n hold)
      · exact hseen hnew

/-- A thread may always get to know more. -/
theorem subset_update {past : ℕ → Finset ℕ} {thread : ℕ} {more : Finset ℕ}
    (h : past thread ⊆ more) (t : ℕ) : past t ⊆ Function.update past thread more t :=
  (Function.forall_update_iff past (fun t known => past t ⊆ known)).mpr
    ⟨h, fun _ _ => subset_rfl⟩ t

/-- A thread may always get more handles. -/
theorem subset_update_handles {handles : ℕ → List (Fin SHARD_COUNT × ℕ)} {thread : ℕ}
    {more : List (Fin SHARD_COUNT × ℕ)} (h : handles thread ⊆ more) (t : ℕ) :
    handles t ⊆ Function.update handles thread more t :=
  (Function.forall_update_iff handles (fun t held => handles t ⊆ held)).mpr
    ⟨h, fun _ _ => List.Subset.refl _⟩ t

omit [ShardKind σ T C K] in
theorem knower_held {i : Fin SHARD_COUNT} {held : K × List (ShardAccess T)}
    (h : (s.lanes i).holder = some held) : s.knower i = s.past (s.holders i) := by
  rw [knower, h]
  rfl

omit [ShardKind σ T C K] in
theorem knower_free {i : Fin SHARD_COUNT} (h : (s.lanes i).holder = none) :
    s.knower i = s.released i := by
  rw [knower, h]
  rfl

/-- A shard whose mutex nobody takes or releases is known at least as well. -/
theorem Inv.locked_other (h : s.Inv owner due ps) (i : Fin SHARD_COUNT)
    (hholder : (s'.lanes i).holder.isSome = (s.lanes i).holder.isSome)
    (hholders : s'.holders i = s.holders i) (hreleased : s'.released i = s.released i)
    (hpast : ∀ thread, s.past thread ⊆ s'.past thread)
    (hwrites : shard_writes i s'.memory = shard_writes i s.memory) :
    Knows (s'.knower i) (shard_writes i s'.memory) := by
  rw [hwrites]
  refine (h.locked i).mono ?_
  rw [knower, knower, hholder, hholders, hreleased]
  split_ifs
  · exact hpast _
  · exact subset_rfl

/-- A turn of the holder of a shard's mutex. -/
theorem Inv.on_lane (h : s.Inv owner due ps) {i : Fin SHARD_COUNT} {l : Lane σ T K} {p : Progress}
    (hlanes : s'.lanes = Function.update s.lanes i l) (hvisitors : s'.visitors = s.visitors)
    (hgrows : s.Grows s') (hl : l.Inv p) (hsafe : Safe s'.memory)
    (hshard : ShardMemory i s'.memory l.order (ShardKind.store l.shard) p)
    (hlocked : Knows (s'.knower i) (shard_writes i s'.memory))
    (hother : ∀ j, j ≠ i → shard_writes j s'.memory = shard_writes j s.memory
      ∧ ShardMemory j s'.memory (s.lanes j).order (ShardKind.store (s.lanes j).shard) (ps j))
    (hreleased : ∀ j, j ≠ i → s'.released j = s.released j ∧ s'.holders j = s.holders j)
    (hhandles : ∀ thread, ∀ handle ∈ s'.handles thread, handle ∈ s.handles thread
      ∨ Shows s'.memory (s'.past thread) handle.1 (handle.2 + 1)) :
    s'.Inv owner due (Function.update ps i p) := by
  refine h.grow hgrows ?_ ⟨hsafe, fun j => ?_⟩ (fun j => ?_) hhandles
    (fun v => .inl (congrFun hvisitors v))
  · rw [hlanes]
    exact forall_update_both h.lanes hl
  · rw [hlanes]
    by_cases hj : j = i
    · subst hj
      rw [Function.update_self, Function.update_self]
      exact hshard
    · rw [Function.update_of_ne hj, Function.update_of_ne hj]
      exact (hother j hj).2
  · by_cases hj : j = i
    · subst hj
      exact hlocked
    · obtain ⟨hrel, hhold⟩ := hreleased j hj
      refine h.locked_other j ?_ hhold hrel hgrows.past (hother j hj).1
      rw [hlanes, Function.update_of_ne hj]

/-- Other shards' orders stay as they are. -/
theorem orders_update {i : Fin SHARD_COUNT} {l : Lane σ T K}
    (h : (s.lanes i).order <+: l.order) (j : Fin SHARD_COUNT) :
    (s.lanes j).order <+: (Function.update s.lanes i l j).order :=
  (Function.forall_update_iff s.lanes (fun j l => (s.lanes j).order <+: l.order)).mpr
    ⟨h, fun _ _ => List.prefix_rfl⟩ j

theorem Inv.lock [DecidableEq K] {i : Fin SHARD_COUNT} {thread : ℕ} {call : C} {l : Lane σ T K}
    (h : s.Inv owner due ps) (hl : Lane.lock call (s.lanes i) = some l)
    (hs' : s' = { s with
      lanes := Function.update s.lanes i l
      holders := Function.update s.holders i thread
      past := Function.update s.past thread (s.past thread ∪ s.released i) }) :
    s'.Inv owner due (Function.update ps i (ps i)) ∧ s.Grows s' := by
  obtain ⟨hfree, ⟨held, hheld⟩, hshard⟩ : (s.lanes i).holder = none
      ∧ (∃ held, l.holder = some held) ∧ l.shard = (s.lanes i).shard := by
    unfold Lane.lock at hl
    cases hholder : (s.lanes i).holder with
    | some held => simp [hholder] at hl
    | none =>
      simp only [hholder, Option.some.injEq] at hl
      exact ⟨rfl, ⟨_, by rw [← hl]⟩, by rw [← hl]⟩
  have horder : (s.lanes i).order <+: l.order := by
    rw [Lane.lock_order hl]
    exact prefix_enroll _ _ _
  have hgrows : s.Grows s' := by
    subst hs'
    exact ⟨List.prefix_rfl, subset_update Finset.subset_union_left, fun _ => List.Subset.refl _,
      orders_update horder⟩
  refine ⟨h.on_lane (l := l) (by rw [hs']) (by rw [hs']) hgrows ((h.lanes i).lock hl)
    (by rw [hs']; exact h.shared.safe) ?_ ?_ (fun j _ => ?_) (fun j hj => ?_) ?_, hgrows⟩
  · subst hs'
    rw [hshard]
    exact (h.shared.shards i).mono horder
  · -- the mutex hands over what its last holder knew
    have hlocked := h.locked i
    rw [knower_free hfree] at hlocked
    have hholder : (s'.lanes i).holder = some held := by
      rw [hs']
      dsimp only
      rw [Function.update_self, hheld]
    rw [knower_held hholder, hs']
    dsimp only
    rw [Function.update_self, Function.update_self]
    exact hlocked.mono Finset.subset_union_right
  · subst hs'
    exact ⟨rfl, h.shared.shards j⟩
  · subst hs'
    exact ⟨rfl, Function.update_of_ne hj _ _⟩
  · subst hs'
    exact fun _ _ hhandle => .inl hhandle

/-- What is left of a lane when it has made an access. -/
theorem access_inv {l l' : Lane σ T K} {p : Progress} (h : l.Inv p) {k : K} {a : ShardAccess T}
    {todo : List (ShardAccess T)} (hholder : l.holder = some (k, a :: todo))
    (hl : l.access = some l') :
    p.Allows CHUNK_SIZE a.step ∧ a.Fits l.order p ∧ l'.order = l.order
      ∧ ShardKind.store l'.shard = a.on_chunks (ShardKind.store l.shard)
      ∧ l'.holder = some (k, todo) ∧ l'.Inv (p.apply a.step) := by
  have hprogram := h.program
  rw [show l.todo = a :: todo by simp [Lane.todo, hholder]] at hprogram
  obtain ⟨hallows, hfits, hrest⟩ := hprogram
  obtain ⟨p', hinv, -⟩ := h.access hl
  unfold Lane.access at hl
  simp only [hholder, Option.some.injEq] at hl
  have hvisible : p.visible CHUNK_SIZE ≤ (p.apply a.step).visible CHUNK_SIZE :=
    (h.good.le_apply a.step).visible_le
  subst hl
  refine ⟨hallows, hfits, rfl, ShardKind.store_apply a l.shard, rfl, ?_, h.good.apply hallows,
    hrest, hinv.known, hinv.nodup, hinv.calling, fun k' hk' => ?_⟩
  · dsimp only
    rw [ShardKind.store_apply]
    exact ShardAccess.on_chunks_shape h.shape h.good hallows hfits
  · exact ((List.take_prefix_take_left hvisible).map _).subset (h.returned k' hk')

theorem store_all_grows {stores : List (Loc × Cell T × Mode)} :
    ∀ {memory memory' : List (Event Loc (Cell T))} {past past' : Finset ℕ} {stamps : List ℕ},
      store_all memory past stores stamps = some (memory', past') →
      memory <+: memory' ∧ past ⊆ past' := by
  induction stores with
  | nil =>
    intro memory memory' past past' stamps hstores
    obtain ⟨rfl, rfl⟩ := Prod.mk.inj (Option.some.inj hstores)
    exact ⟨List.prefix_rfl, subset_rfl⟩
  | cons w stores ih =>
    intro memory memory' past past' stamps hstores
    rcases stamps with _ | ⟨stamp, stamps⟩
    · simp [store_all] at hstores
    · obtain ⟨⟨memory₁, past₁⟩, hstore, hrest⟩ := Option.bind_eq_some_iff.mp hstores
      obtain ⟨-, rfl, rfl⟩ := store_spec hstore
      obtain ⟨hle, hpast⟩ := ih hrest
      exact ⟨(List.prefix_append _ _).trans hle, (Finset.subset_insert _ _).trans hpast⟩

/-- Stores to one shard, as other shards see them. -/
theorem store_all_other {j : Fin SHARD_COUNT} {order : List T} {store : Chunks T} {p : Progress}
    {stores : List (Loc × Cell T × Mode)} :
    ∀ {memory memory' : List (Event Loc (Cell T))} {past past' : Finset ℕ} {stamps : List ℕ},
      store_all memory past stores stamps = some (memory', past') →
      (∀ w ∈ stores, ¬ w.1.Guarded j ∧ ∀ block, w.1 ≠ .slots j block) →
      ShardMemory j memory order store p →
      shard_writes j memory' = shard_writes j memory ∧ ShardMemory j memory' order store p := by
  induction stores with
  | nil =>
    intro memory memory' past past' stamps hstores _ hmemory
    obtain ⟨rfl, rfl⟩ := Prod.mk.inj (Option.some.inj hstores)
    exact ⟨rfl, hmemory⟩
  | cons w stores ih =>
    intro memory memory' past past' stamps hstores hother hmemory
    rcases stamps with _ | ⟨stamp, stamps⟩
    · simp [store_all] at hstores
    · obtain ⟨⟨memory₁, past₁⟩, hstore, hrest⟩ := Option.bind_eq_some_iff.mp hstores
      obtain ⟨-, rfl, rfl⟩ := store_spec hstore
      obtain ⟨hguarded, hslots⟩ := hother _ List.mem_cons_self
      obtain ⟨hwrites, hframe⟩ := hmemory.frame (e := ⟨w.1, w.2.1, stamp, true, w.2.2, past⟩)
        (fun _ => hguarded) (fun block _ hloc => absurd hloc (hslots block)) le_rfl
        (fun block hloc => absurd hloc (hslots block))
      obtain ⟨hwrites', hmemory'⟩ :=
        ih hrest (fun w hw => hother w (List.mem_cons_of_mem _ hw)) hframe
      exact ⟨hwrites'.trans hwrites, hmemory'⟩

/-- The stores of an access are to its own shard. -/
theorem stores_other {i j : Fin SHARD_COUNT} (hj : j ≠ i) (store : Chunks T) (a : ShardAccess T) :
    ∀ w ∈ a.stores i store, ¬ w.1.Guarded j ∧ ∀ block, w.1 ≠ .slots j block := by
  have hne : i ≠ j := Ne.symm hj
  cases a <;> simp [ShardAccess.stores, Loc.Guarded, hne]

theorem Inv.access {i : Fin SHARD_COUNT} {stamps : List ℕ} {l : Lane σ T K}
    {memory : List (Event Loc (Cell T))} {past : Finset ℕ} (h : s.Inv owner due ps)
    (hl : Lane.access (s.lanes i) = some l)
    (hstores : store_all s.memory (s.past (s.holders i)) (s.next_stores i) stamps
      = some (memory, past))
    (hs' : s' = { s with
      lanes := Function.update s.lanes i l
      memory := memory
      past := Function.update s.past (s.holders i) past }) :
    (∃ ps', s'.Inv owner due ps') ∧ s.Grows s' := by
  rcases hholder : (s.lanes i).holder with _ | ⟨k, _ | ⟨a, todo⟩⟩
  · simp [Lane.access, hholder] at hl
  · simp [Lane.access, hholder] at hl
  obtain ⟨hallows, hfits, horder, hstore, hheld, hinv⟩ := access_inv (h.lanes i) hholder hl
  have htodo : (s.lanes i).todo = a :: todo := by simp [Lane.todo, hholder]
  rw [next_stores, htodo] at hstores
  have hknows := h.locked i
  rw [knower_held hholder] at hknows
  obtain ⟨hshard, hknows', hsafe⟩ := (h.shared.shards i).access h.shared.safe hknows
    (h.lanes i).shape (h.lanes i).good hallows hfits hstores
  obtain ⟨hle, hpast⟩ := store_all_grows hstores
  have hgrows : s.Grows s' := by
    subst hs'
    exact ⟨hle, subset_update hpast, fun _ => List.Subset.refl _,
      orders_update (by rw [horder])⟩
  refine ⟨⟨_, h.on_lane (l := l) (by rw [hs']) (by rw [hs']) hgrows hinv (by rw [hs']; exact hsafe)
    ?_ ?_ (fun j hj => ?_) (fun j hj => ?_) ?_⟩, hgrows⟩
  · subst hs'
    rw [horder, hstore]
    exact hshard
  · have hheld' : (s'.lanes i).holder = some (k, todo) := by
      rw [hs']
      dsimp only
      rw [Function.update_self, hheld]
    rw [knower_held hheld', hs']
    dsimp only
    rw [Function.update_self]
    exact hknows'
  · subst hs'
    exact store_all_other hstores (stores_other hj _ a) (h.shared.shards j)
  · subst hs'
    exact ⟨rfl, rfl⟩
  · subst hs'
    exact fun _ _ hhandle => .inl hhandle

theorem Inv.unlock [DecidableEq K] {i : Fin SHARD_COUNT} {n : ℕ} {l : Lane σ T K}
    (h : s.Inv owner due ps) (hl : Lane.unlock (s.lanes i) = some l)
    (hn : n = (s.lanes i).order.findIdx
      (fun entry => some (ShardKind.key σ entry) = (s.lanes i).holder.map Prod.fst))
    (hs' : s' = { s with
      lanes := Function.update s.lanes i l
      released := Function.update s.released i (s.past (s.holders i))
      handles := Function.update s.handles (s.holders i) ((i, n) :: s.handles (s.holders i)) }) :
    (∃ ps', s'.Inv owner due ps') ∧ s.Grows s' := by
  rcases hholder : (s.lanes i).holder with _ | ⟨k, _ | ⟨a, todo⟩⟩
  · simp [Lane.unlock, hholder] at hl
  swap
  · simp [Lane.unlock, hholder] at hl
  have hinv := (h.lanes i).unlock hl
  have hlane : l = { s.lanes i with holder := none, returned := (s.lanes i).returned ++ [k] } := by
    unfold Lane.unlock at hl
    simp only [hholder, Option.some.injEq] at hl
    exact hl.symm
  have hknows := h.locked i
  rw [knower_held hholder] at hknows
  have hgrows : s.Grows s' := by
    subst hs'
    exact ⟨List.prefix_rfl, fun _ => subset_rfl, subset_update_handles (List.subset_cons_self _ _),
      orders_update (by rw [hlane])⟩
  refine ⟨⟨_, h.on_lane (l := l) (by rw [hs']) (by rw [hs']) hgrows hinv
    (by rw [hs']; exact h.shared.safe) ?_ ?_ (fun j _ => ?_) (fun j hj => ?_) ?_⟩, hgrows⟩
  · subst hs'
    rw [hlane]
    exact h.shared.shards i
  · have hfree : (s'.lanes i).holder = none := by
      rw [hs']
      dsimp only
      rw [Function.update_self, hlane]
    rw [knower_free hfree, hs']
    dsimp only
    rw [Function.update_self]
    exact hknows
  · subst hs'
    exact ⟨rfl, h.shared.shards j⟩
  · subst hs'
    exact ⟨Function.update_of_ne hj _ _, rfl⟩
  · -- with the accesses done all of the order is visible to the thread
    subst hs'
    intro thread handle hhandle
    dsimp only at hhandle ⊢
    by_cases hthread : thread = s.holders i
    · subst hthread
      rw [Function.update_self] at hhandle
      rcases List.mem_cons.mp hhandle with rfl | hhandle
      · right
        obtain ⟨ws, hne, hws, -⟩ := h.first 0 i
        refine ⟨_, fun hnil => hne (List.prefix_nil.mp (hnil ▸ hws)), List.prefix_rfl, hknows, ?_⟩
        have hsettled := (h.lanes i).settled_of_done (by simp [Lane.todo, hholder])
        have hagrees := (h.shared.shards i).current.symm.le.visible_le (K := CHUNK_SIZE)
        rw [hsettled, visible_settled CHUNK_SIZE_pos] at hagrees
        refine le_trans (Nat.succ_le_of_lt ?_) hagrees
        obtain ⟨entry, hentry, hkey⟩ := List.mem_map.mp ((h.lanes i).calling k [] hholder)
        rw [hn]
        exact List.findIdx_lt_length_of_exists ⟨entry, hentry, by simp [hholder, hkey]⟩
      · exact .inl hhandle
    · rw [Function.update_of_ne hthread] at hhandle
      exact .inl hhandle

theorem Inv.visit {v source : ℕ} {reload : Option ℕ} {visitor : Visitor T}
    {seen : List (Fin SHARD_COUNT × ℕ)}
    {memory : List (Event Loc (Cell T))} {past : Finset ℕ} (h : s.Inv owner due ps)
    (hv : (s.visitors v).weak_step s.memory (s.past (owner v)) source reload
      = some (visitor, seen, memory, past))
    (hs' : s' = { s with
      visitors := Function.update s.visitors v visitor
      memory := memory
      past := Function.update s.past (owner v) past
      handles := Function.update s.handles (owner v) (seen ++ s.handles (owner v)) }) :
    s'.Inv owner due ps ∧ s.Grows s' := by
  obtain ⟨known, hfollows⟩ := h.visitors v
  obtain ⟨hstepped, hshared, hextends⟩ := hfollows.step h.shared hv
  have hgrows : s.Grows s' := by
    subst hs'
    exact ⟨hextends.memory, subset_update hextends.past,
      subset_update_handles (List.subset_append_right _ _), fun _ => List.prefix_rfl⟩
  refine ⟨h.grow hgrows (by rw [hs']; exact h.lanes) (by rw [hs']; exact hshared) (fun i => ?_) ?_
    (fun w => ?_), hgrows⟩
  · refine h.locked_other i ?_ ?_ ?_ hgrows.past ?_ <;> rw [hs']
    exact hextends.writes i
  · subst hs'
    intro thread handle hhandle
    dsimp only at hhandle ⊢
    by_cases hthread : thread = owner v
    · subst hthread
      rw [Function.update_self] at hhandle ⊢
      rcases List.mem_append.mp hhandle with hhandle | hhandle
      · exact .inr (hstepped.shows_seen handle hhandle)
      · exact .inl hhandle
    · rw [Function.update_of_ne hthread] at hhandle
      exact .inl hhandle
  · subst hs'
    dsimp only
    by_cases hw : w = v
    · subst hw
      rw [Function.update_self, Function.update_self, Function.update_self]
      exact .inr ⟨seen, hstepped, List.subset_append_left _ _⟩
    · exact .inl (Function.update_of_ne hw _ _)

/-- Who has a handle knows that its slot has been initialized. -/
theorem Inv.knows_slot (h : s.Inv owner due ps) {thread n : ℕ} {i : Fin SHARD_COUNT}
    (hhandle : (i, n) ∈ s.handles thread) :
    KnowsBlock i s.memory (s.past thread) (n / CHUNK_SIZE) := by
  obtain ⟨ws, hne, hws, hknows, hvisible⟩ := h.handles thread _ hhandle
  have hshown := (h.shared.shards i).shown ws hne hws
  refine (h.shared.shards i).knows_block hws hknows ?_
  have hchunk : n / CHUNK_SIZE < (progress_of ws).chunks := by
    refine lt_of_lt_of_le (Nat.div_lt_of_lt_mul ?_) hshown.good.indexed_le
    exact (Nat.lt_of_succ_le hvisible).trans_le (min_le_right _ _)
  rw [hshown.lens _ hchunk]
  exact Option.some_ne_none _

theorem Inv.update {thread n stamp : ℕ} {i : Fin SHARD_COUNT} {memory : List (Event Loc (Cell T))}
    {past : Finset ℕ} (h : s.Inv owner due ps) (hhandle : (i, n) ∈ s.handles thread)
    (hstore : store s.memory (s.past thread) (.slots i (n / CHUNK_SIZE)) .slots .relaxed stamp
      = some (memory, past))
    (hs' : s' = { s with memory := memory, past := Function.update s.past thread past }) :
    s'.Inv owner due ps ∧ s.Grows s' := by
  have hblock := h.knows_slot hhandle
  have hsafe := h.shared.safe.write hstore (fun j d hd hloc hplain =>
    hblock.only j d hd hloc (hplain.resolve_right (fun hmode => Mode.noConfusion hmode)))
  obtain ⟨-, rfl, rfl⟩ := store_spec hstore
  have hframe : ∀ j, _ ∧ ShardMemory j _ (s.lanes j).order
      (ShardKind.store (s.lanes j).shard) (ps j) := fun j => (h.shared.shards j).frame
    (e := ⟨.slots i (n / CHUNK_SIZE), .slots, stamp, true, .relaxed, s.past thread⟩) (fun _ => id)
    (fun _ _ _ hmode => Mode.noConfusion hmode) le_rfl (fun block hloc => by
      obtain ⟨rfl, rfl⟩ := Loc.slots.inj hloc
      obtain ⟨k, -, e, he, hinit⟩ := hblock.initialized
      exact (h.shared.shards i).slots e (List.mem_of_getElem? he) _ hinit.1)
  have hgrows : s.Grows s' := by
    subst hs'
    exact ⟨List.prefix_append _ _, subset_update (Finset.subset_insert _ _),
      fun _ => List.Subset.refl _, fun _ => List.prefix_rfl⟩
  refine ⟨h.grow hgrows (by rw [hs']; exact h.lanes) (by
    rw [hs']; exact ⟨hsafe, fun j => (hframe j).2⟩) (fun j => ?_)
    (by rw [hs']; exact fun _ _ hh => .inl hh) (by rw [hs']; exact fun _ => .inl rfl), hgrows⟩
  refine h.locked_other j ?_ ?_ ?_ hgrows.past ?_ <;> rw [hs']
  exact (hframe j).1

theorem Inv.meet {thread other : ℕ} (h : s.Inv owner due ps)
    (hs' : s' = { s with
      past := Function.update s.past thread (s.past thread ∪ s.past other)
      handles := Function.update s.handles thread (s.handles other ++ s.handles thread) }) :
    s'.Inv owner due ps ∧ s.Grows s' := by
  have hgrows : s.Grows s' := by
    subst hs'
    exact ⟨List.prefix_rfl, subset_update Finset.subset_union_left,
      subset_update_handles (List.subset_append_right _ _), fun _ => List.prefix_rfl⟩
  refine ⟨h.grow hgrows (by rw [hs']; exact h.lanes) (by rw [hs']; exact h.shared) (fun j => ?_) ?_
    (by rw [hs']; exact fun _ => .inl rfl), hgrows⟩
  · refine h.locked_other j ?_ ?_ ?_ hgrows.past ?_ <;> rw [hs']
  · subst hs'
    intro t handle hhandle
    dsimp only at hhandle ⊢
    by_cases ht : t = thread
    · subst ht
      rw [Function.update_self] at hhandle ⊢
      rcases List.mem_append.mp hhandle with hhandle | hhandle
      · exact .inr ((h.handles other handle hhandle).mono List.prefix_rfl
          Finset.subset_union_right)
      · exact .inl hhandle
    · rw [Function.update_of_ne ht] at hhandle
      exact .inl hhandle

/-- Every turn keeps the invariant. -/
theorem Inv.step [DecidableEq K] {route : K → Fin SHARD_COUNT} {turn : WeakTurn C}
    (h : s.Inv owner due ps) (hs : s.step route owner turn = some s') :
    (∃ ps', s'.Inv owner due ps') ∧ s.Grows s' := by
  cases turn with
  | lock thread call =>
    obtain ⟨l, hl, heq⟩ := Option.map_eq_some_iff.mp hs
    obtain ⟨hinv, hgrows⟩ := h.lock hl heq.symm
    exact ⟨⟨_, hinv⟩, hgrows⟩
  | access i stamps =>
    obtain ⟨l, hl, hrest⟩ := Option.bind_eq_some_iff.mp hs
    obtain ⟨⟨memory, past⟩, hstores, heq⟩ := Option.map_eq_some_iff.mp hrest
    exact h.access hl hstores heq.symm
  | unlock i =>
    obtain ⟨l, hl, heq⟩ := Option.map_eq_some_iff.mp hs
    exact h.unlock hl rfl heq.symm
  | visit v source reload =>
    obtain ⟨⟨visitor, seen, memory, past⟩, hv, heq⟩ := Option.map_eq_some_iff.mp hs
    obtain ⟨hinv, hgrows⟩ := h.visit hv heq.symm
    exact ⟨⟨_, hinv⟩, hgrows⟩
  | update thread i n stamp =>
    simp only [WeakTraversals.step] at hs
    split_ifs at hs with hhandle
    obtain ⟨⟨memory, past⟩, hstore, heq⟩ := Option.map_eq_some_iff.mp hs
    obtain ⟨hinv, hgrows⟩ := h.update hhandle hstore heq.symm
    exact ⟨⟨_, hinv⟩, hgrows⟩
  | meet thread other =>
    obtain ⟨hinv, hgrows⟩ := h.meet (Option.some.inj hs).symm
    exact ⟨⟨_, hinv⟩, hgrows⟩

/-- It holds along every schedule. -/
theorem Inv.run [DecidableEq K] {route : K → Fin SHARD_COUNT} {schedule : List (WeakTurn C)}
    (h : s.Inv owner due ps) (hs : s.run route owner schedule = some s') :
    (∃ ps', s'.Inv owner due ps') ∧ s.Grows s' := by
  induction schedule generalizing s ps with
  | nil =>
    obtain rfl : s = s' := Option.some.inj hs
    exact ⟨⟨ps, h⟩, Grows.refl s⟩
  | cons turn schedule ih =>
    rw [WeakTraversals.run, List.foldlM_cons] at hs
    obtain ⟨t, ht, hrest⟩ := Option.bind_eq_some_iff.mp hs
    obtain ⟨⟨ps₁, h₁⟩, hgrows₁⟩ := h.step ht
    obtain ⟨hinv, hgrows⟩ := ih h₁ hrest
    exact ⟨hinv, hgrows₁.trans hgrows⟩

end Steps

/-! ## Registration order -/

section Order

variable [DecidableEq K] {route : K → Fin SHARD_COUNT} {owner : ℕ → ℕ}
  {s s' : WeakTraversals σ T K}

omit [DecidableEq K] in
/-- A step of one shard, of the same shards without the rest. -/
theorem on_lane_of_lanes {i : Fin SHARD_COUNT} {f : Lane σ T K → Option (Lane σ T K)}
    {l : Lane σ T K} (hl : f (s.lanes i) = some l) {t : Traversals σ T K}
    (ht : t.lanes = s.lanes) :
    ∃ t', t.on_lane i f = some t' ∧ t'.lanes = Function.update s.lanes i l := by
  refine ⟨{ t with lanes := Function.update t.lanes i l }, ?_, by rw [ht]⟩
  rw [Traversals.on_lane, ht, hl]
  rfl

/-- What a turn does to the shards is what the registration in it does. -/
theorem step_registration {turn : WeakTurn C} (hs : s.step route owner turn = some s')
    {t : Traversals σ T K} (ht : t.lanes = s.lanes) :
    ∃ t', t.run route turn.registration.toList = some t' ∧ t'.lanes = s'.lanes := by
  cases turn with
  | lock thread call =>
    obtain ⟨l, hl, rfl⟩ := Option.map_eq_some_iff.mp hs
    obtain ⟨t', ht', hlanes⟩ := on_lane_of_lanes hl ht
    exact ⟨t', List.foldlM_cons.trans (by rw [Traversals.step, ht']; rfl), hlanes⟩
  | access i stamps =>
    obtain ⟨l, hl, hrest⟩ := Option.bind_eq_some_iff.mp hs
    obtain ⟨⟨memory, past⟩, -, rfl⟩ := Option.map_eq_some_iff.mp hrest
    obtain ⟨t', ht', hlanes⟩ := on_lane_of_lanes hl ht
    exact ⟨t', List.foldlM_cons.trans (by rw [Traversals.step, ht']; rfl), hlanes⟩
  | unlock i =>
    obtain ⟨l, hl, rfl⟩ := Option.map_eq_some_iff.mp hs
    obtain ⟨t', ht', hlanes⟩ := on_lane_of_lanes hl ht
    exact ⟨t', List.foldlM_cons.trans (by rw [Traversals.step, ht']; rfl), hlanes⟩
  | visit v source reload =>
    obtain ⟨⟨visitor, seen, memory, past⟩, -, rfl⟩ := Option.map_eq_some_iff.mp hs
    exact ⟨t, rfl, ht⟩
  | update thread i n stamp =>
    simp only [WeakTraversals.step] at hs
    split_ifs at hs with hhandle
    obtain ⟨⟨memory, past⟩, -, rfl⟩ := Option.map_eq_some_iff.mp hs
    exact ⟨t, rfl, ht⟩
  | meet thread other =>
    obtain rfl := Option.some.inj hs
    exact ⟨t, rfl, ht⟩

/-- Without what threads do besides, a schedule is one of `Traversals`. -/
theorem run_registrations {schedule : List (WeakTurn C)} (hs : s.run route owner schedule = some s')
    {t : Traversals σ T K} (ht : t.lanes = s.lanes) :
    ∃ t', t.run route (schedule.filterMap WeakTurn.registration) = some t'
      ∧ t'.lanes = s'.lanes := by
  induction schedule generalizing s t with
  | nil =>
    obtain rfl : s = s' := Option.some.inj hs
    exact ⟨t, rfl, ht⟩
  | cons turn schedule ih =>
    rw [WeakTraversals.run, List.foldlM_cons] at hs
    obtain ⟨s₁, hturn, hrest⟩ := Option.bind_eq_some_iff.mp hs
    obtain ⟨t₁, hfirst, ht₁⟩ := step_registration hturn ht
    obtain ⟨t', hrun, ht'⟩ := ih hrest ht₁
    have hsplit : (turn :: schedule).filterMap WeakTurn.registration
        = turn.registration.toList ++ schedule.filterMap WeakTurn.registration := by
      cases turn <;> rfl
    refine ⟨t', ?_, ht'⟩
    rw [hsplit, Traversals.run, List.foldlM_append]
    exact Option.bind_eq_some_iff.mpr ⟨t₁, hfirst, hrun⟩

/-- The order a shard records is the order in which calls took its mutex. -/
theorem run_order {schedule : List (WeakTurn C)} (hs : new.run route owner schedule = some s)
    (i : Fin SHARD_COUNT) :
    (s.lanes i).order.map (ShardKind.key σ)
      = Traversals.registration_order σ route i (schedule.filterMap WeakTurn.registration) := by
  obtain ⟨t, ht, hlanes⟩ := run_registrations hs (t := Traversals.new) rfl
  rw [← hlanes]
  exact Traversals.run_order ht i

end Order

/-! ## What threads can rely on -/

/-- Memory is used safely, whatever the schedule, the places that stores take and the stores that
loads read from. -/
structure Sound (σ : Type) {T C K : Type} [ShardKind σ T C K] [DecidableEq K]
    (route : K → Fin SHARD_COUNT) (owner : ℕ → ℕ) : Prop where
  /-- There is no data race. -/
  race_free : ∀ (schedule : List (WeakTurn C)) (s : WeakTraversals σ T K),
    new.run route owner schedule = some s → RaceFree s.memory
  /-- No traversal reads an entry that has not been written, and there is always something that it
  can read next, in a debug build and in a release build. -/
  visits : ∀ (schedule : List (WeakTurn C)) (s : WeakTraversals σ T K),
    new.run route owner schedule = some s → ∀ v, (s.visitors v).pc ≠ .fault
      ∧ ((s.visitors v).Done ∨ ∀ debug : Bool, ∃ source reload, reload.isSome = debug
        ∧ (s.step route owner (.visit v source reload : WeakTurn C)).isSome = true)
  /-- Memory does not hold up registrations. -/
  registers : ∀ (schedule : List (WeakTurn C)) (s : WeakTraversals σ T K),
    new.run route owner schedule = some s → ∀ i, (s.lanes i).access.isSome = true →
      ∃ stamps, (s.step route owner (.access i stamps : WeakTurn C)).isSome = true
  /-- Who has a handle knows that its slot has been initialized. -/
  initialized : ∀ (schedule : List (WeakTurn C)) (s : WeakTraversals σ T K),
    new.run route owner schedule = some s → ∀ thread i n, (i, n) ∈ s.handles thread →
      ∃ j ∈ s.past thread, ∃ e, s.memory[j]? = some e ∧ Initializes i (n / CHUNK_SIZE) e

/-- What traversals can rely on in release/acquire memory. -/
structure Complete (σ : Type) {T C K I : Type} [ShardKind σ T C K] [ShardSlots σ T C K I]
    [DecidableEq K] (route : K → Fin SHARD_COUNT) (owner : ℕ → ℕ) : Prop where
  /-- A call that returns has given its thread a handle to the entry with the call's key, and that
  entry has the slot which the maps of the shard have for the key. -/
  handed : ∀ (schedule : List (WeakTurn C)) (s s' : WeakTraversals σ T K),
    new.run route owner schedule = some s → ∀ i k, (s.lanes i).holder = some (k, []) →
      s.step route owner (.unlock i : WeakTurn C) = some s' →
        ∃ n entry, (i, n) ∈ s'.handles (s.holders i) ∧ (s'.lanes i).order[n]? = some entry
          ∧ ShardKind.key σ entry = k
          ∧ ShardSlots.found (s'.lanes i).shard k = some (ShardSlots.slot σ entry)
  /-- What a traversal has visited of a shard is the beginning of the shard's registration order,
  every entry once. -/
  beginning : ∀ (schedule : List (WeakTurn C)) (s : WeakTraversals σ T K),
    new.run route owner schedule = some s → ∀ i,
      (s.lanes i).order.map (ShardKind.key σ)
          = Traversals.registration_order σ route i (schedule.filterMap WeakTurn.registration)
        ∧ ((s.lanes i).order.map (ShardKind.key σ)).Nodup
        ∧ ∀ v, (s.visitors v).visited i <+: (s.lanes i).order
  /-- A traversal that has finished a shard has visited the entry of every handle that its thread
  had before the traversal loaded the shard's index. -/
  held : ∀ (before after : List (WeakTurn C)) (s s' : WeakTraversals σ T K),
    new.run route owner before = some s → s.run route owner after = some s' → ∀ v i,
      (s.visitors v).Pending i → (s'.visitors v).Finished i →
        ∀ n, (i, n) ∈ s.handles (owner v) → ∃ entry, (s.lanes i).order[n]? = some entry
          ∧ ((s'.visitors v).visited i)[n]? = some entry
  /-- A traversal that begins when another one of its thread is over, or of a thread that has told
  its thread since, visits at least what that one visited. -/
  later : ∀ (before after : List (WeakTurn C)) (s s' : WeakTraversals σ T K),
    new.run route owner before = some s → s.run route owner after = some s' → ∀ v w,
      s.handles (owner v) ⊆ s.handles (owner w) → s.visitors w = Visitor.new →
        (s'.visitors w).Done → ∀ i, (s.visitors v).visited i <+: (s'.visitors w).visited i

section Sound

variable [DecidableEq K] {route : K → Fin SHARD_COUNT} {owner : ℕ → ℕ}
  {s s' : WeakTraversals σ T K} {before after : List (WeakTurn C)}

theorem run_inv (hs : new.run route owner before = some s) :
    ∃ ps, s.Inv owner (fun _ _ => 0) ps :=
  ((inv_new owner).run hs).1

omit [DecidableEq K] in
/-- A thread that has a handle knows enough of the shard for a traversal to be held to it. -/
theorem Inv.raise {due : ℕ → Fin SHARD_COUNT → ℕ} {ps : Fin SHARD_COUNT → Progress}
    (h : s.Inv owner due ps) {v n : ℕ} {i : Fin SHARD_COUNT}
    (hhandle : (i, n) ∈ s.handles (owner v)) (hpending : (s.visitors v).Pending i) :
    s.Inv owner (Function.update due v (Function.update (due v) i (n + 1))) ps := by
  obtain ⟨known, hfollows⟩ := h.visitors v
  obtain ⟨ws, hne, hws, hknows, hvisible⟩ := h.handles _ _ hhandle
  obtain ⟨longer, hle, hle', hlonger, hknows'⟩ :=
    (hfollows.knows i).longer hknows (hfollows.beginning i) hws
  have hlearned := hfollows.learn hle hlonger hknows' ((h.shared.shards i).grows _ _ hle hlonger)
  have hraised : Follows (Function.update (due v) i (n + 1)) (fun i => (s.lanes i).order) s.memory
      (s.past (owner v)) (s.visitors v) (Function.update known i longer) :=
    ⟨hlearned.nonempty, hlearned.beginning, hlearned.knows, hlearned.visitor.raise ?_ ?_⟩
  · have hvisitors := (Function.forall_update_iff due (fun w due => ∃ known, Follows due
      (fun i => (s.lanes i).order) s.memory (s.past (owner w)) (s.visitors w) known)).mpr
        ⟨⟨_, hraised⟩, fun w _ => h.visitors w⟩
    exact { h with visitors := hvisitors }
  · refine (Function.forall_update_iff (due v) (fun j b =>
      b ≤ (progress_of (Function.update known i longer j)).visible CHUNK_SIZE)).mpr
        ⟨?_, fun j _ => hlearned.visitor.due_le j⟩
    rw [Function.update_self]
    exact hvisible.trans ((h.shared.shards i).grows _ _ hle' hlonger).visible_le
  · intro j
    by_cases hj : j = i
    · subst hj
      exact .inr hpending
    · exact .inl (Function.update_of_ne hj _ _)

theorem run_held (hs : new.run route owner before = some s)
    (hs' : s.run route owner after = some s') {v n : ℕ} {i : Fin SHARD_COUNT}
    (hpending : (s.visitors v).Pending i) (hfinished : (s'.visitors v).Finished i)
    (hhandle : (i, n) ∈ s.handles (owner v)) : n < ((s'.visitors v).visited i).length := by
  obtain ⟨ps, h⟩ := run_inv hs
  obtain ⟨⟨ps', h'⟩, -⟩ := (h.raise hhandle hpending).run hs'
  obtain ⟨known, hfollows⟩ := h'.visitors v
  have hlen := hfollows.visitor.behind i hfinished
  rw [Function.update_self, Function.update_self] at hlen
  exact hlen

omit [DecidableEq K] in
/-- A handle is to an entry of the registration order. -/
theorem Inv.handle_lt {due : ℕ → Fin SHARD_COUNT → ℕ} {ps : Fin SHARD_COUNT → Progress}
    (h : s.Inv owner due ps) {thread n : ℕ} {i : Fin SHARD_COUNT}
    (hhandle : (i, n) ∈ s.handles thread) : n < (s.lanes i).order.length := by
  obtain ⟨ws, hne, hws, -, hvisible⟩ := h.handles _ _ hhandle
  have hshown := (h.shared.shards i).shown ws hne hws
  obtain ⟨e, he, -⟩ := hshown.entries n
    ((Nat.lt_of_succ_le hvisible).trans_le ((min_le_left _ _).trans hshown.good.published_le))
  exact (List.getElem?_eq_some_iff.mp he).1

/-- Some place is left for every store. -/
theorem exists_store_all {T : Type} (stores : List (Loc × Cell T × Mode)) :
    ∀ (memory : List (Event Loc (Cell T))) (past : Finset ℕ),
      ∃ stamps, (store_all memory past stores stamps).isSome = true := by
  induction stores with
  | nil => exact fun memory past => ⟨[], rfl⟩
  | cons w stores ih =>
    intro memory past
    obtain ⟨stamp, hstamp⟩ := exists_store memory past w.1 w.2.1 w.2.2
    obtain ⟨⟨memory', past'⟩, hstore⟩ := Option.isSome_iff_exists.mp hstamp
    obtain ⟨stamps, hstamps⟩ := ih memory' past'
    refine ⟨stamp :: stamps, ?_⟩
    rw [store_all, hstore]
    exact hstamps

theorem sound (σ : Type) {T C K : Type} [ShardKind σ T C K] [DecidableEq K]
    (route : K → Fin SHARD_COUNT) (owner : ℕ → ℕ) : Sound σ route owner where
  race_free := by
    intro schedule s hs
    obtain ⟨ps, h⟩ := run_inv hs
    exact h.shared.safe.race_free
  visits := by
    intro schedule s hs v
    obtain ⟨ps, h⟩ := run_inv hs
    obtain ⟨known, hfollows⟩ := h.visitors v
    rcases hfollows.visitor.shard_le.lt_or_eq with hlt | heq
    · refine ⟨fun hfault => ?_, .inr ?_⟩
      · have hat := hfollows.visitor.here ⟨_, hlt⟩ rfl
        rw [hfault] at hat
        exact hat
      · intro debug
        obtain ⟨source, reload, hdebug, hsome⟩ := hfollows.exists_step h.shared hlt debug
        exact ⟨source, reload, hdebug, by rw [step, Option.isSome_map]; exact hsome⟩
    · refine ⟨fun hfault => ?_, .inl heq⟩
      rw [hfollows.visitor.ended heq] at hfault
      cases hfault
  registers := by
    intro schedule s hs i hi
    obtain ⟨l, hl⟩ := Option.isSome_iff_exists.mp hi
    obtain ⟨stamps, hstamps⟩ :=
      exists_store_all (s.next_stores i) s.memory (s.past (s.holders i))
    refine ⟨stamps, ?_⟩
    rw [step, hl, Option.bind_some, Option.isSome_map]
    exact hstamps
  initialized := by
    intro schedule s hs thread i n hhandle
    obtain ⟨ps, h⟩ := run_inv hs
    exact (h.knows_slot hhandle).initialized

/-- When nobody holds the mutex of a shard, its maps have the slots of its entries. -/
theorem run_found {I : Type} [ShardSlots σ T C K I] (hs : new.run route owner before = some s)
    (i : Fin SHARD_COUNT) (hfree : (s.lanes i).holder = none) :
    ∀ entry ∈ (s.lanes i).order, ShardSlots.found (s.lanes i).shard (ShardKind.key σ entry)
      = some (ShardSlots.slot σ entry) := by
  obtain ⟨t, ht, hlanes⟩ := run_registrations hs (t := Traversals.new) rfl
  have hholds := Traversals.run_holds ht i
  rw [hlanes, ← Lane.outcome_of_free hfree] at hholds
  exact fun entry hentry => (ShardSlots.found_iff hholds _ _).mpr ⟨entry, hentry, rfl, rfl⟩

theorem complete (σ : Type) {T C K I : Type} [ShardKind σ T C K] [ShardSlots σ T C K I]
    [DecidableEq K] (route : K → Fin SHARD_COUNT) (owner : ℕ → ℕ) : Complete σ route owner where
  handed := by
    intro schedule s s' hs i k hholder hs'
    obtain ⟨ps, h⟩ := run_inv hs
    have hrun : new.run route owner (schedule ++ [.unlock i]) = some s' := by
      rw [run, List.foldlM_append, ← run, hs]
      exact (bind_pure _).trans hs'
    obtain ⟨l, hl, rfl⟩ := Option.map_eq_some_iff.mp hs'
    have hfree : l.holder = none := by
      unfold Lane.unlock at hl
      simp only [hholder, Option.some.injEq] at hl
      rw [← hl]
    obtain ⟨entry, hentry, hkey⟩ := List.mem_map.mp ((h.lanes i).calling k [] hholder)
    have hlt : (s.lanes i).order.findIdx (fun entry =>
        decide (some (ShardKind.key σ entry) = (s.lanes i).holder.map Prod.fst))
          < (s.lanes i).order.length :=
      List.findIdx_lt_length_of_exists ⟨entry, hentry, by simp [hholder, hkey]⟩
    have hindex := List.findIdx_getElem (w := hlt)
    have hfound := run_found hrun i
    dsimp only at hfound ⊢
    rw [Function.update_self] at hfound
    replace hfound := hfound hfree
    rw [Function.update_self, Function.update_self]
    rw [Lane.unlock_order hl] at hfound ⊢
    have hkey := Option.some.inj ((of_decide_eq_true hindex).trans
      (congrArg (Option.map Prod.fst) hholder))
    refine ⟨_, _, List.mem_cons_self, List.getElem?_eq_getElem hlt, hkey, ?_⟩
    rw [← hfound _ (List.getElem_mem hlt), hkey]
  beginning := by
    intro schedule s hs i
    obtain ⟨ps, h⟩ := run_inv hs
    refine ⟨run_order hs i, (h.lanes i).nodup, fun v => ?_⟩
    obtain ⟨known, hfollows⟩ := h.visitors v
    exact hfollows.visitor.visited i
  held := by
    intro before after s s' hs hs' v i hpending hfinished n hhandle
    obtain ⟨ps, h⟩ := run_inv hs
    obtain ⟨⟨ps', h'⟩, hgrows⟩ := h.run hs'
    obtain ⟨known, hfollows⟩ := h'.visitors v
    have hlt := run_held hs hs' hpending hfinished hhandle
    have horder := h.handle_lt hhandle
    refine ⟨_, List.getElem?_eq_getElem horder, ?_⟩
    -- both are entries of the later order
    rw [List.getElem?_eq_getElem hlt, Option.some.injEq, (hfollows.visitor.visited i).getElem hlt,
      (hgrows.orders i).getElem horder]
  later := by
    intro before after s s' hs hs' v w htold hnew hdone i
    obtain ⟨ps, h⟩ := run_inv hs
    obtain ⟨⟨ps', h'⟩, hgrows⟩ := h.run hs'
    obtain ⟨known, hfollows⟩ := h.visitors v
    obtain ⟨known', hfollows'⟩ := h'.visitors w
    have hpending : (s.visitors w).Pending i := by
      rw [hnew]
      exact Visitor.pending_new i
    have hfinished : (s'.visitors w).Finished i := by
      rw [Visitor.Finished, hdone]
      exact i.isLt
    refine List.prefix_of_prefix_length_le ((hfollows.visitor.visited i).trans (hgrows.orders i))
      (hfollows'.visitor.visited i) (Nat.le_of_not_lt (fun hlt => ?_))
    -- the first entry that is missed is one that the thread has a handle to
    exact absurd (run_held hs hs' hpending hfinished (htold (h.visited v i _ hlt)))
      (lt_irrefl _)

end Sound

end WeakTraversals

/-- The publication of entries and slots in the timing registry and in the scalar registry, with the
shards that the hash functions pick. -/
theorem registries_race_free (shard_hasher : RandomState TimingKey) (hasher : RandomState ScalarKey)
    (owner : ℕ → ℕ) :
    WeakTraversals.Sound Shard (fun k => select_shard (shard_hasher.hash_one k)) owner
      ∧ WeakTraversals.Sound ScalarShard (fun k => select_shard (hasher.hash_one k)) owner :=
  ⟨WeakTraversals.sound Shard _ owner, WeakTraversals.sound ScalarShard _ owner⟩

/-- What traversals of the two registries find there. -/
theorem traversals_visit_held (shard_hasher : RandomState TimingKey) (hasher : RandomState ScalarKey)
    (owner : ℕ → ℕ) :
    WeakTraversals.Complete Shard (fun k => select_shard (shard_hasher.hash_one k)) owner
      ∧ WeakTraversals.Complete ScalarShard (fun k => select_shard (hasher.hash_one k)) owner :=
  ⟨WeakTraversals.complete Shard _ owner, WeakTraversals.complete ScalarShard _ owner⟩

/-- After a registration has returned another thread may still find the first index. Once it has
met the thread that registered it has to read the new one. -/
example :
    let first : Fin SHARD_COUNT := ⟨0, by decide⟩
    let registered : List (WeakTurn ProfileMeta) := [.lock 0 (.Single "a" .HttpAll),
      .access first [0, 0], .access first [0], .access first [1], .access first [],
      .access first [1], .access first [], .unlock first]
    let visited (turns : List (WeakTurn ProfileMeta)) :=
      (WeakTraversals.new.run (fun _ => first) id (registered ++ turns)).map
        (fun s : WeakTraversals Shard MetricMeta TimingKey => ((s.visitors 1).visited first).length)
    visited [.visit 1 0 none, .visit 1 0 none] = some 0
      ∧ visited [.meet 1 0, .visit 1 0 none] = none
      ∧ visited [.meet 1 0, .visit 1 68 none, .visit 1 67 none, .visit 1 66 none] = some 1
      ∧ visited [.meet 1 0, .visit 1 68 none, .visit 1 67 none, .visit 1 66 (some 67)]
        = some 1 := by
  decide +kernel

end BrzMetrics
