/-
An append-only log kept in chunks of `K` entries and published to readers that
take no lock.

A writer appends one entry at a time. It adds a chunk when all chunks are full,
writes the entry, raises the published length of the entry's chunk, counts the
entry and, if it added a chunk, publishes a new index of chunks. A reader loads
the index once and then, for every chunk of that index, the chunk's published
length, while writers go on.

`Progress` keeps only the numbers: how many chunks there are and are indexed,
and how many entries are written, published and counted. `Good` is what every
reachable state satisfies. The point of it is the last clause: every chunk of
the index but the last one is full, so a reader that has finished a chunk and
finds another one in its index has taken all of the first (`Within.leave`), and
whatever it takes is the beginning of the log.

The order of the writer's steps is left open. `Runs` says that a particular
order is safe from one state to another. A reader's position is `Before` a chunk
or `Within` one; both say how many entries it has taken, and that it will end up
with at least as many as were visible when it loaded the index.
-/
import Mathlib

set_option autoImplicit false

namespace BrzMetrics.ChunkLog

/-! ## Positions -/

/-- The number of chunks that `n` entries take. -/
def chunkCount (K n : ℕ) : ℕ := (n + K - 1) / K

section Positions

variable {K : ℕ} (hK : 0 < K)
include hK

theorem chunkCount_succ (n : ℕ) : chunkCount K (n + 1) = n / K + 1 := by
  rw [chunkCount, show n + 1 + K - 1 = n + K by omega, Nat.add_div_right n hK]

theorem chunkCount_of_mod_eq_zero {n : ℕ} (h : n % K = 0) : chunkCount K n = n / K := by
  obtain ⟨q, rfl⟩ := Nat.dvd_of_mod_eq_zero h
  rw [chunkCount, Nat.mul_div_cancel_left q hK, Nat.add_sub_assoc hK, Nat.mul_add_div hK,
    Nat.div_eq_of_lt (by omega), Nat.add_zero]

theorem chunkCount_of_mod_ne_zero {n : ℕ} (h : n % K ≠ 0) : chunkCount K n = n / K + 1 := by
  obtain ⟨m, rfl⟩ : ∃ m, n = m + 1 := ⟨n - 1, by
    have : n ≠ 0 := fun h0 => h (by rw [h0, Nat.zero_mod])
    omega⟩
  rw [chunkCount_succ hK]
  have hm := Nat.div_add_mod m K
  have hlt := Nat.mod_lt m hK
  -- `m + 1` does not start a chunk, so it shares the chunk of `m`
  have hr : m % K + 1 < K := by
    by_contra hcon
    refine h (Nat.mod_eq_zero_of_dvd ⟨m / K + 1, ?_⟩)
    rw [Nat.mul_succ]
    omega
  have : (m + 1) / K = m / K := by
    rw [show m + 1 = K * (m / K) + (m % K + 1) by omega, Nat.mul_add_div hK,
      Nat.div_eq_of_lt hr, Nat.add_zero]
  rw [this]

/-- A new chunk is due exactly when the log fills its chunks. -/
theorem chunkCount_le_div_iff (n : ℕ) : chunkCount K n ≤ n / K ↔ n % K = 0 := by
  by_cases h : n % K = 0
  · simp [chunkCount_of_mod_eq_zero hK h, h]
  · simp [chunkCount_of_mod_ne_zero hK h, h]

theorem le_mul_chunkCount (n : ℕ) : n ≤ K * chunkCount K n := by
  have hn := Nat.div_add_mod n K
  by_cases h : n % K = 0
  · rw [chunkCount_of_mod_eq_zero hK h]
    omega
  · rw [chunkCount_of_mod_ne_zero hK h, Nat.mul_succ]
    have := Nat.mod_lt n hK
    omega

/-- Only the last chunk may have room. -/
theorem mul_chunkCount_lt (n : ℕ) : K * chunkCount K n < n + K := by
  have hn := Nat.div_add_mod n K
  by_cases h : n % K = 0
  · rw [chunkCount_of_mod_eq_zero hK h]
    omega
  · rw [chunkCount_of_mod_ne_zero hK h, Nat.mul_succ]
    omega

@[simp] theorem chunkCount_zero : chunkCount K 0 = 0 := by
  rw [chunkCount, Nat.div_eq_of_lt (by omega)]

end Positions

/-! ## The numbers -/

/-- How far the log has come. -/
structure Progress where
  chunks : ℕ
  written : ℕ
  published : ℕ
  counted : ℕ
  indexed : ℕ
deriving DecidableEq

/-- A log of `n` entries on which no writer is at work. -/
def settled (K n : ℕ) : Progress where
  chunks := chunkCount K n
  written := n
  published := n
  counted := n
  indexed := chunkCount K n

/-- What a writer does, one shared-memory access at a time. `other` is a step
that readers cannot see. -/
inductive Step where
  | grow
  | write
  | publish
  | count
  | index
  | other
deriving DecidableEq

/-- The effect of a step. -/
def Progress.apply (p : Progress) : Step → Progress
  | .grow => { p with chunks := p.chunks + 1 }
  | .write => { p with written := p.written + 1 }
  | .publish => { p with published := p.written }
  | .count => { p with counted := p.counted + 1 }
  | .index => { p with indexed := p.chunks }
  | .other => p

/-- When the step is the right one to take. -/
def Progress.Allows (K : ℕ) (p : Progress) : Step → Prop
  | .grow => p.written = K * p.chunks
  | .write => p.written < K * p.chunks ∧ p.published = p.written
  | .publish => p.written = p.published + 1
  | .count => True
  | .index => K * p.chunks ≤ p.published + K
  | .other => True

/-- What readers may rely on. -/
structure Good (K : ℕ) (p : Progress) : Prop where
  published_le : p.published ≤ p.written
  written_le : p.written ≤ K * p.chunks
  indexed_le : p.indexed ≤ p.chunks
  /-- Every indexed chunk but the last is full. -/
  full : K * p.indexed ≤ p.published + K

theorem good_settled {K : ℕ} (hK : 0 < K) (n : ℕ) : Good K (settled K n) where
  published_le := le_refl n
  written_le := le_mul_chunkCount hK n
  indexed_le := le_refl _
  full := (mul_chunkCount_lt hK n).le

/-- An allowed step keeps the log good. -/
theorem Good.apply {K : ℕ} {p : Progress} (h : Good K p) {s : Step} (hs : p.Allows K s) :
    Good K (p.apply s) := by
  obtain ⟨h1, h2, h3, h4⟩ := h
  cases s with
  | grow => exact ⟨h1, h2.trans (Nat.mul_le_mul_left K (Nat.le_succ _)), h3.trans (Nat.le_succ _), h4⟩
  | write => exact ⟨h1.trans (Nat.le_succ _), hs.1, h3, h4⟩
  | publish => exact ⟨le_refl _, h2, h3, h4.trans (Nat.add_le_add_right h1 K)⟩
  | count => exact ⟨h1, h2, h3, h4⟩
  | index => exact ⟨h1, h2, le_refl _, hs⟩
  | other => exact ⟨h1, h2, h3, h4⟩

/-- Progress is never undone. -/
structure Progress.Le (p q : Progress) : Prop where
  published : p.published ≤ q.published
  indexed : p.indexed ≤ q.indexed
  written : p.written ≤ q.written

theorem Progress.Le.refl (p : Progress) : p.Le p := ⟨le_refl _, le_refl _, le_refl _⟩

theorem Progress.Le.trans {p q r : Progress} (h : p.Le q) (h' : q.Le r) : p.Le r :=
  ⟨h.published.trans h'.published, h.indexed.trans h'.indexed, h.written.trans h'.written⟩

theorem Good.le_apply {K : ℕ} {p : Progress} (h : Good K p) (s : Step) : p.Le (p.apply s) := by
  obtain ⟨h1, -, h3, -⟩ := h
  cases s <;> constructor <;> simp [Progress.apply, h1, h3]

/-! ## A writer's run -/

/-- The steps `todo` are allowed one after the other from `p`, and lead to `q`. -/
def Runs (K : ℕ) : Progress → List Step → Progress → Prop
  | p, [], q => p = q
  | p, s :: todo, q => p.Allows K s ∧ Runs K (p.apply s) todo q

/-- An append in the middle of a chunk: no chunk is added, no index published. -/
theorem runs_append_within {K : ℕ} (hK : 0 < K) {n : ℕ} (h : n % K ≠ 0) :
    Runs K (settled K n) [.write, .publish, .count, .other] (settled K (n + 1))
      ∧ Runs K (settled K n) [.write, .publish, .other, .count] (settled K (n + 1)) := by
  have hc : chunkCount K (n + 1) = chunkCount K n := by
    rw [chunkCount_succ hK, chunkCount_of_mod_ne_zero hK h]
  have hroom : n < K * chunkCount K n := by
    have hlt := Nat.mod_lt n hK
    have hn := Nat.div_add_mod n K
    rw [chunkCount_of_mod_ne_zero hK h, Nat.mul_succ]
    omega
  constructor <;>
    exact ⟨⟨hroom, rfl⟩, rfl, trivial, trivial, by simp [Runs, settled, Progress.apply, hc]⟩

/-- An append that starts a chunk. -/
theorem runs_append_fresh {K : ℕ} (hK : 0 < K) {n : ℕ} (h : n % K = 0) :
    Runs K (settled K n) [.grow, .write, .publish, .count, .index, .other] (settled K (n + 1))
      ∧ Runs K (settled K n) [.grow, .write, .publish, .other, .count, .index]
          (settled K (n + 1)) := by
  have hc : chunkCount K n = n / K := chunkCount_of_mod_eq_zero hK h
  have hc' : chunkCount K (n + 1) = chunkCount K n + 1 := by rw [chunkCount_succ hK, hc]
  have hn : n = K * chunkCount K n := by
    have := Nat.div_add_mod n K
    -- every chunk is full, so the log ends where the next chunk begins
    rw [hc]
    omega
  have hroom : n < K * (chunkCount K n + 1) := by
    rw [Nat.mul_succ]
    omega
  have hidx : K * (chunkCount K n + 1) ≤ n + 1 + K := by
    rw [Nat.mul_succ]
    omega
  -- the two orders end alike, they differ in when the index is stored
  have hend : ∀ p, p = settled K (n + 1) → Runs K p [] (settled K (n + 1)) := fun p hp => hp
  constructor
  · exact ⟨hn, ⟨hroom, rfl⟩, rfl, trivial, hidx, trivial,
      hend _ (by simp [settled, Progress.apply, hc'])⟩
  · exact ⟨hn, ⟨hroom, rfl⟩, rfl, trivial, trivial, hidx,
      hend _ (by simp [settled, Progress.apply, hc'])⟩

/-! ## What a reader sees -/

/-- The published length of chunk `c`. -/
def Progress.chunkLen (K : ℕ) (p : Progress) (c : ℕ) : ℕ := min K (p.published - K * c)

/-- A chunk before the last indexed one shows all its entries, at any later time. -/
theorem chunkLen_full {K : ℕ} {p q : Progress} (hp : Good K p) (hle : p.Le q) {c : ℕ}
    (hc : c + 1 < p.indexed) : q.chunkLen K c = K := by
  have h1 : K * (c + 2) ≤ K * p.indexed := Nat.mul_le_mul_left K hc
  have h2 := hp.full
  have h3 := hle.published
  have h4 : K * (c + 2) = K * c + K + K := by ring
  rw [Progress.chunkLen]
  omega

/-- The entries of chunk `c` below its published length, as positions in the log, end no
later than what is published. -/
theorem chunkLen_le {K : ℕ} (q : Progress) (c : ℕ) (h : 0 < q.chunkLen K c) :
    K * c + q.chunkLen K c ≤ q.published := by
  rw [Progress.chunkLen] at h ⊢
  omega

/-- If everything published fits in the first `k` chunks, the last of them shows the rest. -/
theorem published_le_of_last {K : ℕ} {q : Progress} {k n : ℕ} (hn : n ≤ q.published)
    (hfit : n ≤ K * (k + 1)) : n ≤ K * k + q.chunkLen K k := by
  rw [Progress.chunkLen]
  have : K * (k + 1) = K * k + K := by ring
  omega

/-! ## A reader's run -/

/-- How many entries a reader would take if no writer moved. -/
def Progress.visible (K : ℕ) (p : Progress) : ℕ := min p.published (K * p.indexed)

theorem visible_settled {K : ℕ} (hK : 0 < K) (n : ℕ) : (settled K n).visible K = n :=
  min_eq_left (le_mul_chunkCount hK n)

theorem Progress.Le.visible_le {K : ℕ} {p q : Progress} (h : p.Le q) :
    p.visible K ≤ q.visible K :=
  min_le_min h.published (Nat.mul_le_mul_left K h.indexed)

theorem Progress.Le.chunkLen_le {K : ℕ} {p q : Progress} (h : p.Le q) (c : ℕ) :
    p.chunkLen K c ≤ q.chunkLen K c :=
  min_le_min_left K (Nat.sub_le_sub_right h.published _)

/-- A reader of `d` indexed chunks, due at least `b` entries, that has taken `n` of them and
goes on with chunk `c`. -/
structure Before (K : ℕ) (p : Progress) (b d c n : ℕ) : Prop where
  indexed : d ≤ p.indexed
  chunk : c ≤ d
  due : b ≤ K * d
  /-- The chunks so far were full. -/
  full : c < d → n = K * c
  last : c = d → b ≤ n

/-- The same reader in chunk `c`, of which it takes the entries from `o` up to `len`. -/
structure Within (K : ℕ) (p : Progress) (b d c len o n : ℕ) : Prop where
  indexed : d ≤ p.indexed
  chunk : c < d
  due : b ≤ K * d
  offset : o ≤ len
  loaded : len ≤ p.chunkLen K c
  taken : n = K * c + o
  full : c + 1 < d → len = K
  last : c + 1 = d → b ≤ K * c + len

section Reader

variable {K : ℕ} {p q : Progress} {b d c len o n : ℕ}

/-- Writers do not disturb a reader. -/
theorem Before.mono (h : Before K p b d c n) (hle : p.Le q) : Before K q b d c n :=
  { h with indexed := h.indexed.trans hle.indexed }

theorem Within.mono (h : Within K p b d c len o n) (hle : p.Le q) :
    Within K q b d c len o n :=
  { h with
    indexed := h.indexed.trans hle.indexed
    loaded := h.loaded.trans (hle.chunkLen_le c) }

/-- The index has just been loaded. -/
theorem before_first (hb : b ≤ p.visible K) : Before K p b p.indexed 0 0 where
  indexed := le_refl _
  chunk := Nat.zero_le _
  due := hb.trans (min_le_right _ _)
  full := fun _ => (Nat.mul_zero K).symm
  last := fun h0 => by
    -- an empty index shows nothing, so nothing is due
    have := hb.trans (min_le_right _ _)
    rwa [← h0, Nat.mul_zero] at this

/-- The published length of the next chunk has just been loaded. -/
theorem Before.enter (h : Before K p b d c n) (hg : Good K p) (hb : b ≤ p.visible K)
    (hc : c < d) : Within K p b d c (p.chunkLen K c) 0 n where
  indexed := h.indexed
  chunk := hc
  due := h.due
  offset := Nat.zero_le _
  loaded := le_refl _
  taken := h.full hc
  full := fun hlt => chunkLen_full hg (Progress.Le.refl p) (hlt.trans_le h.indexed)
  last := fun heq => published_le_of_last (hb.trans (min_le_left _ _)) (heq ▸ h.due)

/-- What the reader takes next is visible, and lies below the published length of its chunk. -/
theorem Within.sees (h : Within K p b d c len o n) (ho : o < len) :
    o < p.chunkLen K c ∧ n < p.visible K := by
  have hlen : o < p.chunkLen K c := ho.trans_le h.loaded
  have hpub := chunkLen_le p c (Nat.zero_lt_of_lt hlen)
  have hK : p.chunkLen K c ≤ K := min_le_left _ _
  have hidx : K * (c + 1) ≤ K * p.indexed :=
    Nat.mul_le_mul_left K (Nat.succ_le_of_lt (h.chunk.trans_le h.indexed))
  have htaken := h.taken
  rw [Nat.mul_succ] at hidx
  exact ⟨hlen, lt_min (by omega) (by omega)⟩

/-- An entry has just been taken. -/
theorem Within.next (h : Within K p b d c len o n) (ho : o < len) :
    Within K p b d c len (o + 1) (n + 1) :=
  { h with
    offset := ho
    taken := by rw [h.taken, Nat.add_assoc] }

/-- The chunk has been read up to the loaded length. -/
theorem Within.leave (h : Within K p b d c len o n) (ho : len ≤ o) : Before K p b d (c + 1) n := by
  have hlen : o = len := le_antisymm h.offset ho
  refine ⟨h.indexed, h.chunk, h.due, fun hlt => ?_, fun heq => ?_⟩
  · rw [h.taken, hlen, h.full hlt, Nat.mul_succ]
  · rw [h.taken, hlen]
    exact h.last heq

end Reader

end BrzMetrics.ChunkLog
