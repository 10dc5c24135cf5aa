import FacetQL.Lib.SortedMap

/-!
# Secondary indexes

A tree of keys that is kept beside a set of records: each record has some keys, and the tree holds
the keys of the records that are there. When a record goes, its keys are erased one by one, and when
one comes, its keys are put in.
-/

namespace SecondaryIndex

variable {K N : Type*} [LinearOrder K] {tree : List (K × Unit)} {keys : Set K} {k : K}

/-- Put keys into a tree, one by one. -/
abbrev putAll (new : List K) (tree : List (K × Unit)) : List (K × Unit) :=
  new.foldl (fun tree key => SortedMap.insert key () tree) tree

/-- Erase keys from a tree, one by one. -/
abbrev eraseAll (old : List K) (tree : List (K × Unit)) : List (K × Unit) :=
  old.foldl (fun tree key => SortedMap.erase key tree) tree

/-- A tree holds these keys and no others. -/
structure Holds (tree : List (K × Unit)) (keys : Set K) : Prop where
  sorted : SortedMap.Sorted tree
  mem {key : K} : (key, ()) ∈ tree ↔ key ∈ keys

theorem Holds.insert (h : Holds tree keys) :
    Holds (SortedMap.insert k () tree) (Insert.insert k keys) := by
  refine ⟨h.sorted.insert, fun {key} => ?_⟩
  rw [SortedMap.mem_insert, h.mem, Set.mem_insert_iff, Prod.mk.injEq, and_iff_left rfl]
  by_cases hkey : key = k
  · exact ⟨fun _ => .inl hkey, fun _ => .inl hkey⟩
  · exact or_congr_right (and_iff_left hkey)

theorem Holds.erase (h : Holds tree keys) : Holds (SortedMap.erase k tree) (keys \ {k}) :=
  ⟨h.sorted.erase, fun {_} => by rw [SortedMap.mem_erase, h.mem]; rfl⟩

theorem Holds.putAll (h : Holds tree keys) (new : List K) :
    Holds (SecondaryIndex.putAll new tree) (keys ∪ {key | key ∈ new}) := by
  induction new generalizing tree keys with
  | nil => simpa using h
  | cons key new ih =>
    have hset : keys ∪ {k | k ∈ key :: new} = Insert.insert key keys ∪ {k | k ∈ new} := by
      ext k
      simp only [Set.mem_union, Set.mem_ofPred_eq, List.mem_cons, Set.mem_insert_iff]
      tauto
    exact hset ▸ ih h.insert

theorem Holds.eraseAll (h : Holds tree keys) (old : List K) :
    Holds (SecondaryIndex.eraseAll old tree) (keys \ {key | key ∈ old}) := by
  induction old generalizing tree keys with
  | nil => simpa using h
  | cons key old ih =>
    have hset : keys \ {k | k ∈ key :: old} = (keys \ {key}) \ {k | k ∈ old} := by
      ext k
      simp only [Set.mem_sdiff, Set.mem_ofPred_eq, List.mem_cons, Set.mem_singleton_iff]
      tauto
    exact hset ▸ ih h.erase

/-! ## The keys of the records that are there -/

/-- The keys of a set of records. -/
def keysOf (f : N → List K) (live : Set N) : Set K := {key | ∃ record ∈ live, key ∈ f record}

variable {f : N → List K} {live : Set N} {record : N}

theorem Holds.start : Holds [] (keysOf f (∅ : Set N)) :=
  ⟨SortedMap.sorted_nil, fun {_} => by simp [keysOf]⟩

omit [LinearOrder K] in
theorem keysOf_insert (record : N) :
    keysOf f (insert record live) = keysOf f live ∪ {key | key ∈ f record} := by
  ext key
  simp only [keysOf, Set.mem_ofPred_eq, Set.mem_insert_iff, Set.mem_union]
  constructor
  · rintro ⟨other, rfl | hother, hkey⟩
    · exact .inr hkey
    · exact .inl ⟨other, hother, hkey⟩
  · rintro (⟨other, hother, hkey⟩ | hkey)
    · exact ⟨other, .inr hother, hkey⟩
    · exact ⟨record, .inl rfl, hkey⟩

omit [LinearOrder K] in
/-- No other record has a key of this one: when it goes, all its keys go, and only they. -/
theorem keysOf_diff
    (happart : ∀ other ∈ live, ∀ key ∈ f other, key ∈ f record → other = record) :
    keysOf f (live \ {record}) = keysOf f live \ {key | key ∈ f record} := by
  ext key
  simp only [keysOf, Set.mem_ofPred_eq, Set.mem_sdiff, Set.mem_singleton_iff]
  constructor
  · rintro ⟨other, ⟨hother, hne⟩, hkey⟩
    exact ⟨⟨other, hother, hkey⟩, fun hrecord => hne (happart other hother key hkey hrecord)⟩
  · rintro ⟨⟨other, hother, hkey⟩, hrecord⟩
    exact ⟨other, ⟨hother, fun heq => hrecord (heq ▸ hkey)⟩, hkey⟩

/-- The tree follows a record that is added. -/
theorem Holds.add (h : Holds tree (keysOf f live)) (record : N) :
    Holds (SecondaryIndex.putAll (f record) tree) (keysOf f (Insert.insert record live)) :=
  keysOf_insert record ▸ h.putAll _

theorem Holds.remove (h : Holds tree (keysOf f live)) (record : N)
    (happart : ∀ other ∈ live, ∀ key ∈ f other, key ∈ f record → other = record) :
    Holds (SecondaryIndex.eraseAll (f record) tree) (keysOf f (live \ {record})) :=
  keysOf_diff happart ▸ h.eraseAll _

end SecondaryIndex
