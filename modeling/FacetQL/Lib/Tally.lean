import FacetQL.Lib.SortedMap

/-!
# Tallies

A multiset over a linear order, as a sorted map from its elements to how often each of them
occurs. An element whose count gets to zero is dropped from the map, so that the first key is
the least element.
-/

namespace Tally

variable {K : Type*} [LinearOrder K]

/-- One more of an element. -/
def add (k : K) (t : List (K × Nat)) : List (K × Nat) :=
  SortedMap.insert k ((SortedMap.find k t).getD 0 + 1) t

/-- One less of an element. -/
def remove (k : K) (t : List (K × Nat)) : List (K × Nat) :=
  match SortedMap.find k t with
  | none => t
  | some n => if n - 1 = 0 then SortedMap.erase k t else SortedMap.insert k (n - 1) t

/-- The least element. -/
def least? (t : List (K × Nat)) : Option K := t.head?.map Prod.fst

/-- A count as it stands in the map. -/
def entry (n : Nat) : Option Nat := if n = 0 then none else some n

/-- The map counts the elements of a list. -/
structure Counts (t : List (K × Nat)) (l : List K) : Prop where
  sorted : SortedMap.Sorted t
  find : ∀ k, SortedMap.find k t = entry (l.count k)

variable {k m : K} {t : List (K × Nat)} {l l' : List K}

theorem entry_getD (n : Nat) : (entry n).getD 0 = n := by
  rw [entry]
  split_ifs with h
  · exact h.symm
  · rfl

theorem counts_nil : Counts ([] : List (K × Nat)) [] := ⟨SortedMap.sorted_nil, fun _ => rfl⟩

theorem Counts.perm (h : Counts t l) (hperm : l.Perm l') : Counts t l' :=
  ⟨h.sorted, fun k => by rw [h.find, hperm.count_eq]⟩

theorem Counts.add (h : Counts t l) (k : K) : Counts (Tally.add k t) (k :: l) := by
  refine ⟨h.sorted.insert, fun j => ?_⟩
  rw [Tally.add, h.find, entry_getD]
  by_cases hj : j = k
  · subst hj
    rw [h.sorted.find_insert_self, List.count_cons_self, entry, if_neg (Nat.succ_ne_zero _)]
  · rw [h.sorted.find_insert_of_ne hj, h.find, List.count_cons_of_ne (Ne.symm hj)]

theorem Counts.remove (h : Counts t (k :: l)) : Counts (Tally.remove k t) l := by
  have hfind : SortedMap.find k t = some (l.count k + 1) := by
    rw [h.find, List.count_cons_self, entry, if_neg (Nat.succ_ne_zero _)]
  have hother : ∀ j ≠ k, SortedMap.find j t = entry (l.count j) := fun j hj => by
    rw [h.find, List.count_cons_of_ne (Ne.symm hj)]
  rw [Tally.remove, hfind]
  simp only [Nat.add_sub_cancel]
  split_ifs with hzero
  · refine ⟨h.sorted.erase, fun j => ?_⟩
    by_cases hj : j = k
    · subst hj
      rw [SortedMap.find_erase_self, hzero]
      rfl
    · rw [h.sorted.find_erase_of_ne hj, hother j hj]
  · refine ⟨h.sorted.insert, fun j => ?_⟩
    by_cases hj : j = k
    · subst hj
      rw [h.sorted.find_insert_self, entry, if_neg hzero]
    · rw [h.sorted.find_insert_of_ne hj, hother j hj]

/-- What a list contains has an entry. -/
theorem Counts.exists_mem (h : Counts t l) (hk : k ∈ l) : ∃ n, (k, n) ∈ t := by
  refine ⟨l.count k, h.sorted.find_eq_some.1 ?_⟩
  rw [h.find, entry, if_neg (List.count_pos_iff.2 hk).ne']

/-- The first key bounds the list from below. -/
theorem Counts.least_le (h : Counts t l) (hleast : least? t = some m) (hk : k ∈ l) : m ≤ k := by
  obtain ⟨n, hn⟩ := h.exists_mem hk
  rcases t with _ | ⟨e, t⟩
  · cases hleast
  obtain rfl : e.1 = m := Option.some.inj hleast
  rcases List.mem_cons.1 hn with heq | hmem
  · rw [← heq]
  · exact ((SortedMap.sorted_cons.1 h.sorted).1 _ hmem).le

theorem Counts.eq_nil (h : Counts t l) (hleast : least? t = none) : l = [] := by
  refine List.eq_nil_iff_forall_not_mem.2 fun k hk => ?_
  obtain ⟨n, hn⟩ := h.exists_mem hk
  rcases t with _ | ⟨e, t⟩
  · cases hn
  · cases hleast

/-- The least element occurs. -/
theorem Counts.least_mem (h : Counts t l) (hleast : least? t = some m) : m ∈ l := by
  rcases t with _ | ⟨e, t⟩
  · cases hleast
  obtain rfl : e.1 = m := Option.some.inj hleast
  by_contra hnot
  have hfind := h.sorted.find_eq_some.2 (List.mem_cons_self (a := e) (l := t))
  rw [h.find, List.count_eq_zero.2 hnot] at hfind
  cases hfind

end Tally
