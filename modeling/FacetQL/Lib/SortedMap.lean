import Mathlib

/-!
# Sorted association lists

A finite map over a linear order, as the list of its entries in ascending
order of their keys. The operations are filters of that list, so that each of
them acts on a concatenation piece by piece: this is what an ordered tree needs,
whose entries are those of its subtrees one after the other.
-/

namespace SortedMap

variable {K V : Type*} [LinearOrder K]

/-- The entries stand in strictly ascending order of their keys. -/
def Sorted (l : List (K × V)) : Prop := l.Pairwise fun a b => a.1 < b.1

/-- The value under a key. -/
def find (k : K) (l : List (K × V)) : Option V := (l.find? fun e => e.1 = k).map Prod.snd

/-- The entries below a key. -/
def below (k : K) (l : List (K × V)) : List (K × V) := l.filter fun e => e.1 < k

/-- The entries above a key. -/
def above (k : K) (l : List (K × V)) : List (K × V) := l.filter fun e => k < e.1

/-- The entries at or above a key. -/
def atLeast (k : K) (l : List (K × V)) : List (K × V) := l.filter fun e => k ≤ e.1

/-- The entries at or below a key. -/
def atMost (k : K) (l : List (K × V)) : List (K × V) := l.filter fun e => e.1 ≤ k

/-- Put a value under a key. -/
def insert (k : K) (v : V) (l : List (K × V)) : List (K × V) := below k l ++ (k, v) :: above k l

/-- Drop the entry under a key. -/
def erase (k : K) (l : List (K × V)) : List (K × V) := below k l ++ above k l

variable {k k' : K} {v : V} {l A B C : List (K × V)} {e : K × V}

@[simp] theorem sorted_nil : Sorted ([] : List (K × V)) := .nil

@[simp] theorem mem_below : e ∈ below k l ↔ e ∈ l ∧ e.1 < k := by simp [below]

@[simp] theorem mem_above : e ∈ above k l ↔ e ∈ l ∧ k < e.1 := by simp [above]

theorem mem_insert : e ∈ insert k v l ↔ e = (k, v) ∨ e ∈ l ∧ e.1 ≠ k := by
  simp only [insert, List.mem_append, List.mem_cons, mem_below, mem_above, ne_iff_lt_or_gt]
  tauto

theorem mem_erase : e ∈ erase k l ↔ e ∈ l ∧ e.1 ≠ k := by
  simp only [erase, List.mem_append, mem_below, mem_above, ne_iff_lt_or_gt]
  tauto

theorem Sorted.below (h : Sorted l) : Sorted (below k l) := h.filter _

theorem Sorted.above (h : Sorted l) : Sorted (above k l) := h.filter _

theorem sorted_append : Sorted (A ++ B) ↔ Sorted A ∧ Sorted B ∧ ∀ a ∈ A, ∀ b ∈ B, a.1 < b.1 :=
  List.pairwise_append

theorem sorted_cons : Sorted (e :: l) ↔ (∀ b ∈ l, e.1 < b.1) ∧ Sorted l := List.pairwise_cons

theorem Sorted.insert (h : Sorted l) : Sorted (insert k v l) := by
  rw [SortedMap.insert, sorted_append, sorted_cons]
  refine ⟨h.below, ⟨fun b hb => (mem_above.1 hb).2, h.above⟩, fun a ha b hb => ?_⟩
  rcases List.mem_cons.1 hb with rfl | hb
  · exact (mem_below.1 ha).2
  · exact (mem_below.1 ha).2.trans (mem_above.1 hb).2

theorem Sorted.erase (h : Sorted l) : Sorted (erase k l) :=
  sorted_append.2 ⟨h.below, h.above, fun _ ha _ hb =>
    (mem_below.1 ha).2.trans (mem_above.1 hb).2⟩

/-! ## Looking up -/

theorem Sorted.eq_of_key_eq (h : Sorted l) {a b : K × V} (ha : a ∈ l) (hb : b ∈ l)
    (hab : a.1 = b.1) : a = b := by
  induction l with
  | nil => simp at ha
  | cons c l ih =>
    obtain ⟨hc, hl⟩ := sorted_cons.1 h
    rcases List.mem_cons.1 ha with rfl | ha'
    · exact (List.mem_cons.1 hb).elim Eq.symm fun hb' => absurd hab (hc b hb').ne
    · rcases List.mem_cons.1 hb with rfl | hb'
      · exact absurd hab (hc a ha').ne'
      · exact ih hl ha' hb'

theorem Sorted.nodup (h : Sorted l) : l.Nodup :=
  h.imp fun hab he => hab.ne (congrArg Prod.fst he)

/-- A sorted list is determined by its entries. -/
theorem Sorted.ext (hA : Sorted A) (hB : Sorted B) (h : ∀ e, e ∈ A ↔ e ∈ B) : A = B :=
  ((List.perm_ext_iff_of_nodup hA.nodup hB.nodup).2 h).eq_of_pairwise
    (fun _ _ _ _ hab hba => absurd (hab.trans hba) (lt_irrefl _)) hA hB

theorem Sorted.find_eq_some (h : Sorted l) : find k l = some v ↔ (k, v) ∈ l := by
  constructor
  · intro hf
    obtain ⟨⟨k', v'⟩, he, rfl⟩ := Option.map_eq_some_iff.1 hf
    obtain rfl : k' = k := by simpa using List.find?_some he
    exact List.mem_of_find?_eq_some he
  intro hm
  obtain ⟨e, he⟩ : ∃ e, l.find? (fun e => e.1 = k) = some e :=
    Option.isSome_iff_exists.1 (List.find?_isSome.2 ⟨_, hm, by simp⟩)
  have hk : e.1 = k := by simpa using List.find?_some he
  rw [find, he, h.eq_of_key_eq (List.mem_of_find?_eq_some he) hm hk]
  rfl

theorem find_eq_none : find k l = none ↔ ∀ e ∈ l, e.1 ≠ k := by
  simp [find]

theorem Sorted.find_congr (hA : Sorted A) (hB : Sorted B)
    (h : ∀ v, (k, v) ∈ A ↔ (k', v) ∈ B) : find k A = find k' B := by
  ext v
  rw [hA.find_eq_some, hB.find_eq_some, h v]

theorem Sorted.find_insert_self (h : Sorted l) : find k (SortedMap.insert k v l) = some v :=
  h.insert.find_eq_some.2 (mem_insert.2 (.inl rfl))

theorem Sorted.find_insert_of_ne (h : Sorted l) (hk : k' ≠ k) :
    find k' (SortedMap.insert k v l) = find k' l :=
  h.insert.find_congr h fun w => by
    rw [mem_insert]
    simp [hk]

theorem find_erase_self : find k (erase k l) = none :=
  find_eq_none.2 fun _ he => (mem_erase.1 he).2

theorem Sorted.find_erase_of_ne (h : Sorted l) (hk : k' ≠ k) :
    find k' (SortedMap.erase k l) = find k' l :=
  h.erase.find_congr h fun w => by
    rw [mem_erase]
    simp [hk]

/-! ## How many entries -/

/-- The entry under a key stands between those below it and those above it. -/
theorem Sorted.below_append_above (h : Sorted l) :
    l = SortedMap.below k l ++ ((find k l).map (Prod.mk k)).toList ++ SortedMap.above k l := by
  rcases hf : find k l with _ | v
  · have hne := find_eq_none.1 hf
    rw [Option.map_none, Option.toList_none, List.append_nil]
    exact h.ext h.erase fun e => (and_iff_left_of_imp (hne e)).symm.trans mem_erase.symm
  have hv := h.find_eq_some.1 hf
  rw [Option.map_some, Option.toList_some, List.append_assoc, List.singleton_append]
  refine h.ext h.insert fun e => Iff.trans ?_ mem_insert.symm
  by_cases hk : e.1 = k
  · exact ⟨fun he => .inl (h.eq_of_key_eq he hv hk), fun he => he.elim (· ▸ hv) And.left⟩
  · exact ⟨fun he => .inr ⟨he, hk⟩, fun he => he.elim (fun he => absurd (he ▸ rfl) hk) And.left⟩

theorem Sorted.length_insert (h : Sorted l) :
    (SortedMap.insert k v l).length = if (find k l).isSome then l.length else l.length + 1 := by
  have hlen := congrArg List.length (h.below_append_above (k := k))
  cases hf : find k l <;> simp [SortedMap.insert, hf] at hlen ⊢ <;> omega

theorem Sorted.length_erase (h : Sorted l) :
    (SortedMap.erase k l).length = if (find k l).isSome then l.length - 1 else l.length := by
  have hlen := congrArg List.length (h.below_append_above (k := k))
  cases hf : find k l <;> simp [SortedMap.erase, hf] at hlen ⊢ <;> omega

theorem Sorted.erase_eq_self (h : Sorted l) (hk : find k l = none) : SortedMap.erase k l = l := by
  conv_rhs => rw [h.below_append_above (k := k), hk]
  simp [SortedMap.erase]

/-! ## Concatenations -/

theorem below_append : below k (A ++ B) = below k A ++ below k B := List.filter_append ..

theorem above_append : above k (A ++ B) = above k A ++ above k B := List.filter_append ..

theorem below_eq_self (h : ∀ e ∈ l, e.1 < k) : below k l = l :=
  List.filter_eq_self.2 fun e he => by simpa using h e he

theorem below_eq_nil (h : ∀ e ∈ l, k ≤ e.1) : below k l = [] :=
  List.filter_eq_nil_iff.2 fun e he => by simpa using h e he

theorem above_eq_self (h : ∀ e ∈ l, k < e.1) : above k l = l :=
  List.filter_eq_self.2 fun e he => by simpa using h e he

theorem above_eq_nil (h : ∀ e ∈ l, e.1 ≤ k) : above k l = [] :=
  List.filter_eq_nil_iff.2 fun e he => by simpa using h e he

theorem atLeast_append : atLeast k (A ++ B) = atLeast k A ++ atLeast k B := List.filter_append ..

theorem atMost_append : atMost k (A ++ B) = atMost k A ++ atMost k B := List.filter_append ..

theorem atLeast_eq_self (h : ∀ e ∈ l, k ≤ e.1) : atLeast k l = l :=
  List.filter_eq_self.2 fun e he => by simpa using h e he

theorem atLeast_eq_nil (h : ∀ e ∈ l, e.1 < k) : atLeast k l = [] :=
  List.filter_eq_nil_iff.2 fun e he => by simpa using h e he

theorem atMost_eq_self (h : ∀ e ∈ l, e.1 ≤ k) : atMost k l = l :=
  List.filter_eq_self.2 fun e he => by simpa using h e he

theorem atMost_eq_nil (h : ∀ e ∈ l, k < e.1) : atMost k l = [] :=
  List.filter_eq_nil_iff.2 fun e he => by simpa using h e he

@[simp] theorem mem_atLeast : e ∈ atLeast k l ↔ e ∈ l ∧ k ≤ e.1 := by simp [atLeast]

@[simp] theorem mem_atMost : e ∈ atMost k l ↔ e ∈ l ∧ e.1 ≤ k := by simp [atMost]

theorem Sorted.eq_below_append (h : Sorted l) : l = SortedMap.below k l ++ atLeast k l := by
  refine h.ext (sorted_append.2 ⟨h.below, h.filter _, fun a ha b hb => ?_⟩) fun e => ?_
  · exact (mem_below.1 ha).2.trans_le (mem_atLeast.1 hb).2
  · rw [List.mem_append, mem_below, mem_atLeast, ← and_or_left]
    simp [lt_or_ge]

theorem Sorted.eq_append_above (h : Sorted l) : l = atMost k l ++ SortedMap.above k l := by
  refine h.ext (sorted_append.2 ⟨h.filter _, h.above, fun a ha b hb => ?_⟩) fun e => ?_
  · exact (mem_atMost.1 ha).2.trans_lt (mem_above.1 hb).2
  · rw [List.mem_append, mem_atMost, mem_above, ← and_or_left]
    simp [le_or_gt]

theorem Sorted.above_eq (h : Sorted (A ++ e :: B)) : SortedMap.above e.1 (A ++ e :: B) = B := by
  obtain ⟨-, hB, hAB⟩ := sorted_append.1 h
  rw [above_append, above_eq_nil fun a ha => (hAB a ha e (by simp)).le, List.nil_append,
    ← List.singleton_append, above_append, above_eq_self (sorted_cons.1 hB).1]
  simp [SortedMap.above]

theorem Sorted.below_eq (h : Sorted (A ++ e :: B)) : SortedMap.below e.1 (A ++ e :: B) = A := by
  obtain ⟨-, hB, hAB⟩ := sorted_append.1 h
  rw [below_append, below_eq_self fun a ha => hAB a ha e (by simp),
    ← List.singleton_append, below_append, below_eq_nil fun b hb => ((sorted_cons.1 hB).1 b hb).le]
  simp [SortedMap.below]

section Piece

variable (hA : ∀ e ∈ A, e.1 < k) (hC : ∀ e ∈ C, k < e.1)

include hA hC

theorem insert_append : insert k v (A ++ B ++ C) = A ++ insert k v B ++ C := by
  simp [insert, below_append, above_append, below_eq_self hA, above_eq_self hC,
    above_eq_nil fun e he => (hA e he).le, below_eq_nil fun e he => (hC e he).le]

theorem erase_append : erase k (A ++ B ++ C) = A ++ erase k B ++ C := by
  simp [erase, below_append, above_append, below_eq_self hA, above_eq_self hC,
    above_eq_nil fun e he => (hA e he).le, below_eq_nil fun e he => (hC e he).le]

theorem find_append : find k (A ++ B ++ C) = find k B := by
  have hA' : A.find? (fun e => e.1 = k) = none := by
    simpa using fun a b h => (hA (a, b) h).ne
  have hC' : C.find? (fun e => e.1 = k) = none := by
    simpa using fun a b h => (hC (a, b) h).ne'
  rw [find, find, List.find?_append, List.find?_append, hA', hC', Option.none_or, Option.or_none]

end Piece

theorem Sorted.insert_eq_self (h : Sorted l) (hk : find k l = some v) :
    SortedMap.insert k v l = l := by
  conv_rhs => rw [h.below_append_above (k := k), hk]
  simp [SortedMap.insert]

/-! ## Other values under the same keys -/

section MapValues

variable {W : Type*} {f : V → W}

/-- Replace every value by its image. -/
def mapValues (f : V → W) (l : List (K × V)) : List (K × W) := l.map fun e => (e.1, f e.2)

omit [LinearOrder K] in
theorem filter_mapValues (p : K → Bool) :
    (mapValues f l).filter (fun e => p e.1) = mapValues f (l.filter fun e => p e.1) :=
  List.filter_map

theorem below_mapValues : below k (mapValues f l) = mapValues f (below k l) :=
  filter_mapValues fun key => decide (key < k)

theorem above_mapValues : above k (mapValues f l) = mapValues f (above k l) :=
  filter_mapValues fun key => decide (k < key)

theorem insert_mapValues : insert k (f v) (mapValues f l) = mapValues f (insert k v l) := by
  rw [insert, insert, below_mapValues, above_mapValues, mapValues, mapValues, mapValues,
    List.map_append, List.map_cons]

theorem erase_mapValues : erase k (mapValues f l) = mapValues f (erase k l) := by
  rw [erase, erase, below_mapValues, above_mapValues, mapValues, mapValues, mapValues,
    List.map_append]

theorem find_mapValues : find k (mapValues f l) = (find k l).map f := by
  rw [find, find, mapValues, List.find?_map, Option.map_map, Option.map_map]
  rfl

theorem Sorted.mapValues (h : Sorted l) : Sorted (mapValues f l) :=
  List.pairwise_map.2 h

omit [LinearOrder K] in
theorem mem_mapValues {e : K × W} : e ∈ mapValues f l ↔ ∃ v, (e.1, v) ∈ l ∧ f v = e.2 := by
  obtain ⟨k, w⟩ := e
  simp [mapValues]

omit [LinearOrder K] in
theorem mapValues_congr {g : V → W} (h : ∀ e ∈ l, f e.2 = g e.2) : mapValues f l = mapValues g l :=
  List.map_congr_left fun e he => by rw [h e he]

end MapValues

end SortedMap
