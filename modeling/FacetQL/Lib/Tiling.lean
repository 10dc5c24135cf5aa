import FacetQL.Lib.SortedMap

/-!
# Tilings of a key range

The children of a node of a search tree stand side by side: the separators cut
the range of the node into pieces, and each child covers one of them. A tiling
of `[lo, hi)` is such a list of children, each with the least key of its piece;
a piece ends where the next one starts, the last one at `hi`.
-/

variable {K C V : Type*} [LinearOrder K]

/-- The nodes, the least keys of pieces with their children, tile `[lo, hi)`, and `P` holds of
    each. -/
inductive Tiling (P : K → WithTop K → C → Prop) : WithTop K → WithTop K → List (K × C) → Prop
  | nil (a : WithTop K) : Tiling P a a []
  | cons {l : K} {mid hi : WithTop K} {c : C} {rest : List (K × C)} (hlt : ↑l < mid)
      (hc : P l mid c) (hrest : Tiling P mid hi rest) : Tiling P ↑l hi ((l, c) :: rest)

namespace Tiling

variable {P Q : K → WithTop K → C → Prop} {lo hi : WithTop K} {xs ys : List (K × C)}
  {k l : K} {mid : WithTop K} {c : C}

theorem nil_iff : Tiling P lo hi [] ↔ lo = hi :=
  ⟨fun h => by cases h; rfl, fun h => h ▸ nil lo⟩

theorem cons_iff : Tiling P lo hi ((l, c) :: xs) ↔
    lo = ↑l ∧ ∃ mid, ↑l < mid ∧ P l mid c ∧ Tiling P mid hi xs := by
  constructor
  · intro h
    cases h with
    | cons hlt hc hrest => exact ⟨rfl, _, hlt, hc, hrest⟩
  · rintro ⟨rfl, mid, hlt, hc, hrest⟩
    exact cons hlt hc hrest

theorem singleton_iff : Tiling P lo hi [(l, c)] ↔ lo = ↑l ∧ ↑l < hi ∧ P l hi c := by
  rw [cons_iff]
  simp [nil_iff]

/-- A tiling cut in two is two tilings that meet. -/
theorem append_iff : Tiling P lo hi (xs ++ ys) ↔ ∃ mid, Tiling P lo mid xs ∧ Tiling P mid hi ys := by
  induction xs generalizing lo with
  | nil => simp [nil_iff]
  | cons x xs ih =>
    obtain ⟨l, c⟩ := x
    rw [List.cons_append, cons_iff]
    simp only [ih, cons_iff]
    constructor
    · rintro ⟨rfl, m, hlt, hc, mid, hxs, hys⟩
      exact ⟨mid, ⟨rfl, m, hlt, hc, hxs⟩, hys⟩
    · rintro ⟨mid, ⟨rfl, m, hlt, hc, hxs⟩, hys⟩
      exact ⟨rfl, m, hlt, hc, mid, hxs, hys⟩

theorem le (h : Tiling P lo hi xs) : lo ≤ hi := by
  induction h with
  | nil a => exact le_rfl
  | cons hlt _ _ ih => exact hlt.le.trans ih

theorem imp (h : Tiling P lo hi xs) (hPQ : ∀ l mid c, (l, c) ∈ xs → P l mid c → Q l mid c) :
    Tiling Q lo hi xs := by
  induction h with
  | nil a => exact nil a
  | cons hlt hc _ ih =>
    exact cons hlt (hPQ _ _ _ (by simp) hc) (ih fun l mid c hm => hPQ l mid c (by simp [hm]))

theorem extend {hi' : WithTop K} (hP : ∀ {l mid mid' c}, mid ≤ mid' → P l mid c → P l mid' c)
    (h : Tiling P lo hi xs) (hxs : xs ≠ []) (hhi : hi ≤ hi') : Tiling P lo hi' xs := by
  induction h with
  | nil a => exact absurd rfl hxs
  | @cons l mid hi c rest hlt hc hrest ih =>
    rcases eq_or_ne rest [] with rfl | hne
    · obtain rfl := nil_iff.1 hrest
      exact cons (hlt.trans_le hhi) (hP hhi hc) (nil _)
    · exact cons hlt hc (ih hne hhi)

/-- The first piece can start earlier, for a `P` that allows wider pieces. -/
theorem lower {l' : K} (hP : ∀ {l l' mid c}, l' ≤ l → P l mid c → P l' mid c)
    (h : Tiling P lo hi ((l, c) :: xs)) (hl : l' ≤ l) : Tiling P ↑l' hi ((l', c) :: xs) := by
  obtain ⟨-, mid, hlt, hc, hrest⟩ := cons_iff.1 h
  exact cons ((WithTop.coe_le_coe.2 hl).trans_lt hlt) (hP hl hc) hrest

theorem mem_range (h : Tiling P lo hi xs) (hm : (l, c) ∈ xs) : lo ≤ ↑l ∧ ↑l < hi := by
  induction h with
  | nil a => simp at hm
  | cons hlt _ hrest ih =>
    rcases List.mem_cons.1 hm with he | hm
    · obtain ⟨rfl, rfl⟩ := Prod.mk.injEq .. ▸ he
      exact ⟨le_rfl, hlt.trans_le hrest.le⟩
    · exact ⟨hlt.le.trans (ih hm).1, (ih hm).2⟩

/-- Every child holds up `P` on some piece. -/
theorem exists_of_mem (h : Tiling P lo hi xs) (hm : (l, c) ∈ xs) :
    ∃ mid, ↑l < mid ∧ mid ≤ hi ∧ P l mid c := by
  obtain ⟨pre, post, rfl⟩ := List.append_of_mem hm
  obtain ⟨_, _, h⟩ := append_iff.1 h
  obtain ⟨-, mid, hlt, hc, hpost⟩ := cons_iff.1 h
  exact ⟨mid, hlt, hpost.le, hc⟩

/-- A key of the range lies in exactly one piece, with the rest tiled before and after it. -/
theorem route (h : Tiling P lo hi xs) (hlo : lo ≤ ↑k) (hhi : ↑k < hi) :
    ∃ pre l c post mid, xs = pre ++ (l, c) :: post ∧ l ≤ k ∧ ↑k < mid ∧ P l mid c ∧
      Tiling P lo ↑l pre ∧ Tiling P mid hi post := by
  induction h with
  | nil a => exact absurd hhi hlo.not_gt
  | @cons l mid hi c rest hlt hc hrest ih =>
    by_cases hk : ↑k < mid
    · exact ⟨[], l, c, rest, mid, rfl, WithTop.coe_le_coe.1 hlo, hk, hc, nil _, hrest⟩
    · obtain ⟨pre, l', c', post, mid', rfl, hl', hk', hc', hpre, hpost⟩ := ih (not_lt.1 hk) hhi
      exact ⟨(l, c) :: pre, l', c', post, mid', rfl, hl', hk', hc', cons hlt hc hpre, hpost⟩

/-- The pieces before that of a key start at or below it, those after it above. -/
theorem takeWhile_le {pre post : List (K × C)} {lo hi mid : WithTop K}
    (hpre : Tiling P lo ↑l pre) (hpost : Tiling P mid hi post) (hl : l ≤ k) (hk : ↑k < mid) :
    (pre ++ (l, c) :: post).takeWhile (fun x => x.1 ≤ k) = pre ++ [(l, c)] := by
  have hpre' : ∀ x ∈ pre, x.1 ≤ k := fun x hx =>
    ((WithTop.coe_lt_coe.1 (hpre.mem_range hx).2).le).trans hl
  rw [List.takeWhile_append_of_pos (by simpa using hpre'), List.takeWhile_cons_of_pos (by simpa)]
  congr 2
  rcases post with _ | ⟨x, post⟩
  · rfl
  refine List.takeWhile_cons_of_neg ?_
  have := hk.trans_le (hpost.mem_range (l := x.1) (c := x.2) (by simp)).1
  simpa using WithTop.coe_lt_coe.1 this

/-! ## The entries of a tiling -/

section Entries

variable {E : C → List (K × V)}

/-- The entries of a tiling lie within its range, when those of the pieces do. -/
theorem entries_range (h : Tiling P lo hi xs)
    (hE : ∀ l mid c, P l mid c → ∀ e ∈ E c, l ≤ e.1 ∧ ↑e.1 < mid) :
    ∀ e ∈ xs.flatMap fun x => E x.2, lo ≤ ↑e.1 ∧ ↑e.1 < hi := by
  induction h with
  | nil a => simp
  | cons hlt hc hrest ih =>
    intro e he
    rcases List.mem_append.1 (List.flatMap_cons ▸ he) with he | he
    · obtain ⟨hl, hmid⟩ := hE _ _ _ hc e he
      exact ⟨WithTop.coe_le_coe.2 hl, hmid.trans_le hrest.le⟩
    · exact ⟨hlt.le.trans (ih e he).1, (ih e he).2⟩

/-- The entries of a tiling are in order, when those of the pieces are. -/
theorem sorted (h : Tiling P lo hi xs)
    (hE : ∀ l mid c, P l mid c → ∀ e ∈ E c, l ≤ e.1 ∧ ↑e.1 < mid)
    (hS : ∀ l mid c, P l mid c → SortedMap.Sorted (E c)) :
    SortedMap.Sorted (xs.flatMap fun x => E x.2) := by
  induction h with
  | nil a => exact .nil
  | cons hlt hc hrest ih =>
    rw [List.flatMap_cons, SortedMap.sorted_append]
    refine ⟨hS _ _ _ hc, ih, fun a ha b hb => ?_⟩
    exact WithTop.coe_lt_coe.1 ((hE _ _ _ hc a ha).2.trans_le (hrest.entries_range hE b hb).1)

end Entries

end Tiling
