import FacetQL.Storage.BTree.Search

/-!
# Scanning a range

`for_each_range` visits the entries whose key starts with a prefix, past a
cursor, in either direction, by seeking from each key it has visited to the next.
-/

namespace FacetQL

namespace BTree

open SortedMap

/-! ## Keys with a prefix -/

theorem upperBoundRev_concat (l : List Byte) (b : Byte) :
    upperBoundRev (l ++ [b]) =
      match upperBoundRev l with
      | some u => some (u ++ [b])
      | none => if b ≠ 255 then some [b + 1] else none := by
  induction l with
  | nil => rfl
  | cons a l ih =>
    rw [List.cons_append, upperBoundRev, upperBoundRev]
    by_cases h : a ≠ 255
    · rw [if_pos h, if_pos h]
      rfl
    · rw [if_neg h, if_neg h, ih]

theorem prefixUpperBound_cons (b : Byte) (p : Bytes) :
    prefixUpperBound (b :: p) =
      match prefixUpperBound p with
      | some u => some (b :: u)
      | none => if b ≠ 255 then some [b + 1] else none := by
  rw [prefixUpperBound, prefixUpperBound, List.reverse_cons, upperBoundRev_concat]
  rcases upperBoundRev p.reverse with _ | u
  · dsimp only [Option.map_none]
    split_ifs <;> rfl
  · simp

/-- The keys with a prefix form an interval, from the prefix to its upper bound. -/
theorem prefix_iff (p k : Bytes) : p <+: k ↔ p ≤ k ∧ ∀ u ∈ prefixUpperBound p, k < u := by
  induction p generalizing k with
  | nil => simp [Bytes.nil_le, prefixUpperBound, upperBoundRev]
  | cons b p ih =>
    rcases k with _ | ⟨c, k⟩
    · have hlt : ([] : Bytes) < b :: p := List.nil_lt_cons b p
      simp [not_le.2 hlt]
    rw [List.cons_prefix_cons, ih, Bytes.cons_le_cons, prefixUpperBound_cons]
    rcases prefixUpperBound p with _ | u
    · -- The last byte grows unless it is the largest one.
      by_cases hb : b = 255
      · have hmax : ¬ b < c := by rw [hb]; exact not_lt.2 (Fin.le_last c)
        simp [hb, hb ▸ hmax]
      have hsucc : c < b + 1 ↔ c ≤ b := by
        have hval : (b + 1).val = b.val + 1 := by
          rw [Fin.val_add_one, if_neg]
          exact hb
        rw [Fin.lt_def, Fin.le_def, hval, Nat.lt_succ_iff]
      have hnil : ¬ k < ([] : Bytes) := not_lt.2 (Bytes.nil_le k)
      simp only [ne_eq, hb, not_false_eq_true, if_true, Option.mem_def, Option.some.injEq,
        forall_eq', Bytes.cons_lt_cons, hnil, and_false, or_false, hsucc, reduceCtorEq,
        false_implies, implies_true, and_true]
      constructor
      · rintro ⟨rfl, hle⟩
        exact ⟨.inr ⟨rfl, hle⟩, le_rfl⟩
      · rintro ⟨hbc | ⟨rfl, hle⟩, hcb⟩
        · exact absurd hcb hbc.not_ge
        · exact ⟨rfl, hle⟩
    simp only [Option.mem_def, Option.some.injEq, forall_eq', Bytes.cons_lt_cons]
    constructor
    · rintro ⟨rfl, hle, hlt⟩
      exact ⟨.inr ⟨rfl, hle⟩, .inr ⟨rfl, hlt⟩⟩
    rintro ⟨hbc | ⟨rfl, hle⟩, hcb | ⟨h, hlt⟩⟩
    · exact absurd hcb hbc.not_gt
    · exact absurd h hbc.ne'
    · exact absurd hcb (lt_irrefl _)
    · exact ⟨rfl, hle, hlt⟩

theorem prefix_of_between {p a b : Bytes} (hb : p <+: b) (hpa : p ≤ a) (hab : a ≤ b) : p <+: a :=
  (prefix_iff p a).2 ⟨hpa, fun u hu => hab.trans_lt (((prefix_iff p b).1 hb).2 u hu)⟩

theorem le_of_extends {p k : Bytes} (h : p <+: k) : p ≤ k := ((prefix_iff p k).1 h).1

/-! ## The entries of a range -/

/-- The entries past a cursor, in the direction of a scan. -/
def past (reverse : Bool) (cursor : Option Bytes) (l : List (Bytes × Bytes)) : List (Bytes × Bytes) :=
  match reverse, cursor with
  | _, none => l
  | false, some c => above c l
  | true, some c => below c l

/-- The entries a scan visits, in its order: with the prefix, and past the cursor. -/
def inRange (pre : Bytes) (cursor : Option Bytes) (reverse : Bool) (l : List (Bytes × Bytes)) :
    List (Bytes × Bytes) :=
  if reverse then ((past true cursor l).filter fun e => pre <+: e.1).reverse
  else (past false cursor l).filter fun e => pre <+: e.1

/-- Visit entries one after the other, until the visitor declines or fails. -/
def visitAll {β : Type} (visit : Bytes → Bytes → β → Except IoError (Bool × β)) :
    List (Bytes × Bytes) → β → Except IoError β
  | [], b => .ok b
  | (k, v) :: es, b =>
    match visit k v b with
    | .error e => .error e
    | .ok (more, b') => if more then visitAll visit es b' else .ok b'

/-- The entry the next turn of a scan looks at. -/
def nextOf (pre : Bytes) (reverse : Bool) (cursor : Option Bytes) (l : List (Bytes × Bytes)) :
    Option (Bytes × Bytes) :=
  match reverse, cursor with
  | true, some c => nearest .lt c l
  | true, none =>
    match prefixUpperBound pre with
    | some u => nearest .lt u l
    | none => l.getLast?
  | false, some c => nearest .gt c l
  | false, none => nearest .ge pre l

section Next

variable {pre : Bytes} {cursor : Option Bytes} {l : List (Bytes × Bytes)}

/-- A forward scan has `X` before it, past the cursor, those with the prefix first. -/
theorem forward_next (pre : Bytes) {X : List (Bytes × Bytes)} (hl : Sorted l)
    (hX : ∃ P, l = P ++ X) (hpre : ∀ e ∈ X, pre ≤ e.1) :
    match X.filter (fun e => pre <+: e.1) with
    | [] => ∀ e ∈ X.head?, ¬ pre <+: e.1
    | e :: rest => X.head? = some e ∧ rest = (above e.1 l).filter fun e => pre <+: e.1 := by
  obtain ⟨P, rfl⟩ := hX
  rcases X with _ | ⟨x, X⟩
  · simp
  have hx : ∀ y ∈ X, x.1 < y.1 := (sorted_cons.1 (sorted_append.1 hl).2.1).1
  by_cases hp : pre <+: x.1
  · rw [List.filter_cons_of_pos (by simpa using hp)]
    exact ⟨rfl, by rw [hl.above_eq]⟩
  -- No later key has the prefix when this one does not.
  have hnone : (x :: X).filter (fun e => pre <+: e.1) = [] := by
    rw [List.filter_eq_nil_iff]
    intro y hy
    rcases List.mem_cons.1 hy with rfl | hy'
    · simpa using hp
    · simpa using fun h => hp (prefix_of_between h (hpre x (by simp)) (hx y hy').le)
  rw [hnone]
  simpa using hp

theorem backward_next (pre : Bytes) {X : List (Bytes × Bytes)} (hl : Sorted l)
    (hX : ∃ S, l = X ++ S) (hpre : ∀ e ∈ X, ∀ u ∈ prefixUpperBound pre, e.1 < u) :
    match (X.filter fun e => pre <+: e.1).reverse with
    | [] => ∀ e ∈ X.getLast?, ¬ pre <+: e.1
    | e :: rest =>
      X.getLast? = some e ∧ rest = ((below e.1 l).filter fun e => pre <+: e.1).reverse := by
  obtain ⟨S, rfl⟩ := hX
  rcases List.eq_nil_or_concat X with rfl | ⟨X', x, rfl⟩
  · simp
  rw [List.concat_eq_append] at *
  have hx : ∀ y ∈ X', y.1 < x.1 := fun y hy =>
    (sorted_append.1 (sorted_append.1 hl).1).2.2 y hy x (by simp)
  by_cases hp : pre <+: x.1
  · have hlast : ((X' ++ [x]).filter fun e => pre <+: e.1).reverse =
        x :: (X'.filter fun e => pre <+: e.1).reverse := by simp [hp]
    rw [List.append_assoc, List.singleton_append] at hl ⊢
    rw [hlast]
    exact ⟨by simp, by rw [hl.below_eq]⟩
  · have hnone : (X' ++ [x]).filter (fun e => pre <+: e.1) = [] := by
      rw [List.filter_eq_nil_iff]
      intro y hy
      rcases List.mem_append.1 hy with hy' | hy'
      · simp only [decide_eq_true_eq]
        intro h
        refine hp ((prefix_iff pre x.1).2 ⟨?_, hpre x (by simp)⟩)
        exact (le_of_extends h).trans (hx y hy').le
      · obtain rfl : y = x := by simpa using hy'
        simpa using hp
    rw [hnone]
    simpa using hp

/-- A turn looks at the first entry of the range left, past which stands the rest, or at none. -/
theorem nextOf_spec (hl : Sorted l) (reverse : Bool) (hcursor : ∀ c ∈ cursor, pre <+: c) :
    match inRange pre cursor reverse l with
    | [] => ∀ e ∈ nextOf pre reverse cursor l, ¬ pre <+: e.1
    | e :: rest => nextOf pre reverse cursor l = some e ∧ rest = inRange pre (some e.1) reverse l := by
  have hfilter : ∀ {q : Bytes × Bytes → Bool}, (∀ e, pre <+: e.1 → q e = true) →
      (l.filter q).filter (fun e => pre <+: e.1) = l.filter fun e => pre <+: e.1 := by
    intro q hq
    rw [List.filter_filter]
    exact List.filter_congr fun e _ => by
      by_cases hp : pre <+: e.1 <;> simp [hp, hq]
  cases reverse with
  | false =>
    rcases cursor with _ | c
    · have := forward_next pre hl ⟨_, hl.eq_below_append (k := pre)⟩
        fun e he => (mem_atLeast.1 he).2
      rwa [atLeast, hfilter fun e he => by simpa using le_of_extends he] at this
    exact forward_next pre hl ⟨_, hl.eq_append_above (k := c)⟩ fun e he =>
      (le_of_extends (hcursor c rfl)).trans (mem_above.1 he).2.le
  | true =>
    rcases cursor with _ | c
    · rcases hu : prefixUpperBound pre with _ | u
      · have := backward_next pre hl ⟨[], (List.append_nil l).symm⟩ (by simp [hu])
        simpa [inRange, past, nextOf, hu] using this
      have hlt : ∀ k, pre <+: k → k < u := fun k hk => ((prefix_iff pre k).1 hk).2 u hu
      have := backward_next pre hl ⟨_, hl.eq_below_append (k := u)⟩
        fun e he u' hu' => by
          obtain rfl : u = u' := Option.some.inj (hu.symm.trans hu')
          exact (mem_below.1 he).2
      rw [below, hfilter fun e he => by simpa using hlt e.1 he] at this
      simpa [inRange, past, nextOf, hu, nearest, below] using this
    exact backward_next pre hl ⟨_, hl.eq_below_append (k := c)⟩ fun e he u hu =>
      (mem_below.1 he).2.trans (((prefix_iff pre c).1 (hcursor c rfl)).2 u hu)

end Next

/-! ## The scan -/

section Run

variable {m : Machine} {h : Nat} {root : PageId}

theorem run_nextInRange (hwf : Wf m.pager.page? h [] ⊤ root) (hh : h < maxTreeDepth) (pre : Bytes)
    (reverse : Bool) (cursor : Option Bytes) : m.run (nextInRange root pre reverse cursor) =
      (.ok (nextOf pre reverse cursor (entriesAt m.pager.page? h root)), m) := by
  have hseek : ∀ k mode, m.run (seekAt root k mode) =
      (.ok (nearest mode k (entriesAt m.pager.page? h root)), m) := fun k mode =>
    run_seekAt hwf (Bytes.nil_le k) (WithTop.coe_lt_top k) hh mode
  unfold nextInRange nextOf
  cases reverse <;> cases cursor
  · exact hseek ..
  · exact hseek ..
  · rcases prefixUpperBound pre with _ | u
    · exact run_edgeEntry false hwf hh
    · exact hseek ..
  · exact hseek ..

/-- A scan with enough turns visits its range in order, until the visitor declines or fails. -/
theorem run_forEachRangeAt {β : Type} (visit : Bytes → Bytes → β → Except IoError (Bool × β))
    (hwf : Wf m.pager.page? h [] ⊤ root) (hh : h < maxTreeDepth) (pre : Bytes) (reverse : Bool) :
    ∀ (turns : Nat) (cursor : Option Bytes) (b : β), (∀ c ∈ cursor, pre <+: c) →
      (inRange pre cursor reverse (entriesAt m.pager.page? h root)).length < turns →
      m.run (forEachRangeAt visit root pre reverse turns cursor b) =
        ((visitAll visit (inRange pre cursor reverse (entriesAt m.pager.page? h root)) b).map some, m)
  | 0, _, _, _, hturns => absurd hturns (Nat.not_lt_zero _)
  | turns + 1, cursor, b, hcursor, hturns => by
    have hnext := nextOf_spec hwf.sorted reverse hcursor
    rw [forEachRangeAt, Machine.run_bind_ok (run_nextInRange hwf hh pre reverse cursor)]
    rcases hrange : inRange pre cursor reverse (entriesAt m.pager.page? h root) with _ | ⟨e, rest⟩
    · rw [hrange] at hnext
      rcases hn : nextOf pre reverse cursor (entriesAt m.pager.page? h root) with _ | e
      · rfl
      · simp [hnext e hn, visitAll, Except.map]
    rw [hrange] at hnext hturns
    obtain ⟨hn, hrest⟩ := hnext
    have he : pre <+: e.1 := by
      have hmem : e ∈ inRange pre cursor reverse (entriesAt m.pager.page? h root) := by
        simp [hrange]
      unfold inRange at hmem
      split_ifs at hmem <;> simp at hmem <;> exact hmem.2
    rw [hn]
    simp only [he, not_true_eq_false, if_false, Program.run_ofExcept_bind, visitAll]
    rcases visit e.1 e.2 b with err | r
    · rfl
    obtain ⟨more, b'⟩ := r
    rcases more with _ | _
    · rfl
    have ih := run_forEachRangeAt visit hwf hh pre reverse turns (some e.1) b' (by simpa using he)
      (by rw [← hrest]; simpa using hturns)
    rw [← hrest] at ih
    exact ih

end Run

end BTree

end FacetQL
