/-
Sorting, deduplicating and grouping lists by a rank.

`sort_by rank` stands for an unstable sort: it is one sorted permutation of its
input, and where the rank tells the elements apart there is no other
(`sort_by_unique`). So nothing proved about it depends on how a particular
unstable sort breaks ties. `dedup` drops an element equal to the one before it,
and a list sorted by an injective rank comes out of it strictly ascending.

`groups` cuts a list where a key changes. On a list whose keys ascend every key
gets exactly one group, which holds all elements with that key.
-/
import Mathlib

set_option autoImplicit false

namespace BrzMetrics.SortBy

section Sorting

variable {α β : Type*} [LinearOrder β]

/-- The list in ascending order of `rank`. -/
def sort_by (rank : α → β) (l : List α) : List α :=
  l.insertionSort (fun a b => rank a ≤ rank b)

instance total_rank (rank : α → β) : Std.Total (fun a b : α => rank a ≤ rank b) :=
  ⟨fun a b => le_total (rank a) (rank b)⟩

instance trans_rank (rank : α → β) : IsTrans α (fun a b => rank a ≤ rank b) :=
  ⟨fun _ _ _ => le_trans⟩

theorem sort_by_perm (rank : α → β) (l : List α) : (sort_by rank l).Perm l :=
  List.perm_insertionSort _ l

@[simp] theorem mem_sort_by {rank : α → β} {l : List α} {a : α} : a ∈ sort_by rank l ↔ a ∈ l :=
  (sort_by_perm rank l).mem_iff

theorem sort_by_pairwise (rank : α → β) (l : List α) :
    (sort_by rank l).Pairwise (fun a b => rank a ≤ rank b) :=
  List.pairwise_insertionSort _ l

/-- A sorted permutation is the sort, as long as no two different elements of
the list share a rank: ties are between equal elements only. -/
theorem sort_by_unique {rank : α → β} {l l' : List α}
    (hrank : ∀ a ∈ l, ∀ b ∈ l, rank a = rank b → a = b)
    (hperm : l'.Perm l) (hsorted : l'.Pairwise (fun a b => rank a ≤ rank b)) :
    l' = sort_by rank l := by
  refine List.Perm.eq_of_pairwise (fun a b ha hb hab hba => ?_)
    hsorted (sort_by_pairwise rank l) (hperm.trans (sort_by_perm rank l).symm)
  exact hrank a (hperm.mem_iff.mp ha) b (mem_sort_by.mp hb) (le_antisymm hab hba)

/-- Elements of different ranks end up strictly ascending. -/
theorem sort_by_pairwise_lt {rank : α → β} {l : List α} (h : (l.map rank).Nodup) :
    (sort_by rank l).Pairwise (fun a b => rank a < rank b) := by
  have hnodup : ((sort_by rank l).map rank).Nodup :=
    ((sort_by_perm rank l).map rank).nodup_iff.mpr h
  refine (sort_by_pairwise rank l).imp₂ (fun a b hle hne => lt_of_le_of_ne hle hne) ?_
  exact List.pairwise_map.mp hnodup

/-- Strictly ascending lists of the same elements are equal. -/
theorem eq_of_pairwise_lt {rank : α → β} {l l' : List α}
    (h : l.Pairwise (fun a b => rank a < rank b)) (h' : l'.Pairwise (fun a b => rank a < rank b))
    (hmem : ∀ a, a ∈ l ↔ a ∈ l') : l = l' := by
  have hnodup : ∀ {l : List α}, l.Pairwise (fun a b => rank a < rank b) → l.Nodup :=
    fun hl => hl.imp (fun {a b} hlt heq => absurd (congrArg rank heq) (ne_of_lt hlt))
  have hperm : l.Perm l' := (List.perm_ext_iff_of_nodup (hnodup h) (hnodup h')).mpr hmem
  refine List.Perm.eq_of_pairwise (fun a b _ _ hab hba => ?_) h h' hperm
  exact absurd (lt_trans hab hba) (lt_irrefl _)

end Sorting

/-! ## Removing repeats -/

section Dedup

variable {α β : Type*} [DecidableEq α]

/-- Drop every element equal to the one before it. -/
def dedup : List α → List α
  | [] => []
  | [a] => [a]
  | a :: b :: l => if a = b then dedup (b :: l) else a :: dedup (b :: l)

@[simp] theorem mem_dedup {a : α} : ∀ {l : List α}, a ∈ dedup l ↔ a ∈ l
  | [] => Iff.rfl
  | [_] => Iff.rfl
  | b :: c :: l => by
      rw [dedup]
      have ih := mem_dedup (a := a) (l := c :: l)
      split_ifs with h
      · rw [ih, h]
        simp
      · rw [List.mem_cons, ih, List.mem_cons (l := c :: l)]

variable [LinearOrder β]

/-- A list ascending in an injective rank loses all its repeats. -/
theorem dedup_pairwise {rank : α → β} (hrank : Function.Injective rank) :
    ∀ {l : List α}, l.Pairwise (fun a b => rank a ≤ rank b) →
      (dedup l).Pairwise (fun a b => rank a < rank b)
  | [], _ => List.Pairwise.nil
  | [a], _ => List.pairwise_singleton _ a
  | a :: b :: l, h => by
      have hab : rank a ≤ rank b := List.rel_of_pairwise_cons h List.mem_cons_self
      have hb := List.pairwise_cons.mp (List.pairwise_cons.mp h).2
      have ih := dedup_pairwise hrank (List.pairwise_cons.mp h).2
      rw [dedup]
      split_ifs with heq
      · exact ih
      · refine List.pairwise_cons.mpr ⟨fun c hc => ?_, ih⟩
        have hlt : rank a < rank b := lt_of_le_of_ne hab (fun h' => heq (hrank h'))
        rcases List.mem_cons.mp (mem_dedup.mp hc) with rfl | hc
        · exact hlt
        · exact hlt.trans_le (hb.1 c hc)

end Dedup

/-! ## Runs of one key -/

section Groups

variable {α κ : Type*} [DecidableEq κ]

/-- The maximal runs of elements with one key, each with its key. -/
def groups (key : α → κ) : List α → List (κ × List α)
  | [] => []
  | a :: l =>
      (key a, a :: l.takeWhile (fun b => key b = key a))
        :: groups key (l.dropWhile (fun b => key b = key a))
termination_by l => l.length
decreasing_by
  simp only [List.length_cons]
  exact Nat.lt_succ_of_le (List.length_dropWhile_le _ l)

@[simp] theorem groups_nil (key : α → κ) : groups key [] = [] := by rw [groups]

theorem groups_cons (key : α → κ) (a : α) (l : List α) :
    groups key (a :: l)
      = (key a, a :: l.takeWhile (fun b => key b = key a))
        :: groups key (l.dropWhile (fun b => key b = key a)) := by rw [groups]

/-- A key has a group exactly when some element has it. -/
theorem mem_map_groups (key : α → κ) (l : List α) (k : κ) :
    k ∈ (groups key l).map Prod.fst ↔ ∃ a ∈ l, key a = k := by
  fun_induction groups key l with
  | case1 => simp
  | case2 a l ih =>
    rw [List.map_cons, List.mem_cons, ih]
    constructor
    · rintro (rfl | ⟨b, hb, rfl⟩)
      · exact ⟨a, List.mem_cons_self, rfl⟩
      · exact ⟨b, List.mem_cons_of_mem _ ((List.dropWhile_sublist _).mem hb), rfl⟩
    · rintro ⟨b, hb, rfl⟩
      rcases List.mem_cons.mp hb with rfl | hb
      · exact Or.inl rfl
      · rw [← List.takeWhile_append_dropWhile (p := fun b => decide (key b = key a)) (l := l)] at hb
        rcases List.mem_append.mp hb with hb | hb
        · exact Or.inl (by simpa using List.mem_takeWhile_imp hb)
        · exact Or.inr ⟨b, hb, rfl⟩

variable [LinearOrder κ]

/-- Past the run of the first key of an ascending list, every key is larger. -/
theorem lt_of_mem_dropWhile {key : α → κ} {a : α} {l : List α}
    (h : (a :: l).Pairwise (fun x y => key x ≤ key y)) {b : α}
    (hb : b ∈ l.dropWhile (fun b => key b = key a)) : key a < key b := by
  obtain ⟨hall, hl⟩ := List.pairwise_cons.mp h
  cases hd : l.dropWhile (fun b => decide (key b = key a)) with
  | nil => rw [hd] at hb; exact absurd hb (List.not_mem_nil)
  | cons c l' =>
    have hc : ¬ key c = key a := by
      have := List.head_dropWhile_not (fun b => decide (key b = key a)) (l := l) (by rw [hd]; simp)
      simpa [hd] using this
    have hmem : ∀ x ∈ c :: l', x ∈ l := fun x hx =>
      (List.dropWhile_sublist (p := fun b => decide (key b = key a)) (l := l)).mem (by rwa [hd])
    have hac : key a < key c :=
      lt_of_le_of_ne (hall c (hmem c List.mem_cons_self)) (fun h' => hc h'.symm)
    have hsub : (c :: l').Pairwise (fun x y => key x ≤ key y) := by
      rw [← hd]
      exact hl.sublist (List.dropWhile_sublist _)
    rw [hd] at hb
    rcases List.mem_cons.mp hb with rfl | hb
    · exact hac
    · exact hac.trans_le ((List.pairwise_cons.mp hsub).1 b hb)

/-- In an ascending list the keys of the groups strictly ascend: no key has two groups. -/
theorem groups_pairwise (key : α → κ) (l : List α)
    (h : l.Pairwise (fun x y => key x ≤ key y)) :
    ((groups key l).map Prod.fst).Pairwise (· < ·) := by
  fun_induction groups key l with
  | case1 => exact List.Pairwise.nil
  | case2 a l ih =>
    rw [List.map_cons, List.pairwise_cons]
    constructor
    · intro k hk
      obtain ⟨b, hb, rfl⟩ := (mem_map_groups key _ k).mp hk
      exact lt_of_mem_dropWhile h hb
    · exact ih ((List.pairwise_cons.mp h).2.sublist (List.dropWhile_sublist _))

/-- In an ascending list a group holds every element with its key, in order. -/
theorem groups_eq_filter (key : α → κ) (l : List α)
    (h : l.Pairwise (fun x y => key x ≤ key y)) :
    ∀ g ∈ groups key l, g.2 = l.filter (fun b => key b = g.1) := by
  fun_induction groups key l with
  | case1 => simp
  | case2 a l ih =>
    obtain ⟨hall, hl⟩ := List.pairwise_cons.mp h
    have hsplit : l = l.takeWhile (fun b => decide (key b = key a))
        ++ l.dropWhile (fun b => decide (key b = key a)) :=
      List.takeWhile_append_dropWhile.symm
    intro g hg
    rcases List.mem_cons.mp hg with rfl | hg
    · -- the first group: all of the run has its key, and nothing after the run
      have htake : (l.takeWhile (fun b => decide (key b = key a))).filter
            (fun b => decide (key b = key a))
          = l.takeWhile (fun b => decide (key b = key a)) :=
        List.filter_eq_self.mpr (fun b hb =>
          List.mem_takeWhile_imp (p := fun b => decide (key b = key a)) hb)
      have hdrop : (l.dropWhile (fun b => decide (key b = key a))).filter
          (fun b => decide (key b = key a)) = [] :=
        List.filter_eq_nil_iff.mpr (fun b hb => by
          simpa using (lt_of_mem_dropWhile h hb).ne')
      simp only [List.filter_cons, decide_true, if_true]
      conv_rhs => rw [hsplit, List.filter_append, htake, hdrop, List.append_nil]
    · have hkey : key a < g.1 := by
        -- a later group: its key is greater, so it has nothing in the run
        obtain ⟨b, hb, hbk⟩ := (mem_map_groups key _ g.1).mp (List.mem_map_of_mem hg)
        rw [← hbk]
        exact lt_of_mem_dropWhile h hb
      have htake : (l.takeWhile (fun b => decide (key b = key a))).filter
          (fun b => decide (key b = g.1)) = [] := by
        refine List.filter_eq_nil_iff.mpr (fun b hb => ?_)
        have hba : key b = key a := by simpa using List.mem_takeWhile_imp hb
        simpa [hba] using hkey.ne
      rw [ih (hl.sublist (List.dropWhile_sublist _)) g hg, List.filter_cons,
        if_neg (by simpa using hkey.ne)]
      conv_rhs => rw [hsplit, List.filter_append, htake, List.nil_append]

end Groups

end BrzMetrics.SortBy
