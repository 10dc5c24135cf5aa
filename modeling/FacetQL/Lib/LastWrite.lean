import Mathlib.Logic.Function.Basic
import Mathlib.Data.List.Basic

/-!
# Maps that are written key by key

A map from keys to optional values, and lists of writes to it, each of which sets or
clears one key. The last write to a key decides, so a log of writes can be applied
to a map that already holds some of their effects.
-/

namespace FacetQL

variable {κ ν : Type} [DecidableEq κ]

/-- Set or clear one key. -/
def write (m : κ → Option ν) (w : κ × Option ν) : κ → Option ν := Function.update m w.1 w.2

/-- Apply writes in order. -/
def writes (m : κ → Option ν) (ws : List (κ × Option ν)) : κ → Option ν := ws.foldl write m

variable {m m' : κ → Option ν} {xs ys : List (κ × Option ν)} {k : κ}

@[simp] theorem writes_nil : writes m [] = m := rfl

@[simp] theorem writes_cons (w : κ × Option ν) : writes m (w :: xs) = writes (write m w) xs := rfl

theorem writes_append : writes m (xs ++ ys) = writes (writes m xs) ys := List.foldl_append

theorem writes_of_notMem (hk : k ∉ xs.map Prod.fst) : writes m xs k = m k := by
  induction xs generalizing m with
  | nil => rfl
  | cons w xs ih =>
    rw [List.map_cons, List.mem_cons, not_or] at hk
    rw [writes_cons, ih hk.2, write, Function.update_of_ne hk.1]

theorem writes_congr (hk : k ∈ xs.map Prod.fst) : writes m xs k = writes m' xs k := by
  induction xs generalizing m m' with
  | nil => cases hk
  | cons w xs ih =>
    rw [writes_cons, writes_cons]
    by_cases hlater : k ∈ xs.map Prod.fst
    · exact ih hlater
    · obtain rfl : k = w.1 := (List.mem_cons.1 hk).resolve_right hlater
      rw [writes_of_notMem hlater, writes_of_notMem hlater, write, write, Function.update_self,
        Function.update_self]

/-- A key to which all writes write the same. -/
theorem writes_eq_of_forall {v : Option ν} (hk : k ∈ xs.map Prod.fst)
    (hv : ∀ w ∈ xs, w.1 = k → w.2 = v) : writes m xs k = v := by
  induction xs generalizing m with
  | nil => cases hk
  | cons w xs ih =>
    rw [writes_cons]
    by_cases hlater : k ∈ xs.map Prod.fst
    · exact ih hlater fun w' hw' => hv w' (List.mem_cons_of_mem _ hw')
    · obtain rfl : k = w.1 := (List.mem_cons.1 hk).resolve_right hlater
      rw [writes_of_notMem hlater, write, Function.update_self]
      exact hv w List.mem_cons_self rfl

theorem writes_absorb (hsub : ∀ w ∈ xs, w.1 ∈ ys.map Prod.fst) :
    writes (writes m xs) ys = writes m ys := by
  funext k
  by_cases hk : k ∈ ys.map Prod.fst
  · exact writes_congr hk
  · rw [writes_of_notMem hk, writes_of_notMem hk, writes_of_notMem]
    intro hx
    obtain ⟨w, hw, rfl⟩ := List.mem_map.1 hx
    exact hk (hsub w hw)

/-- Writes that change nothing change nothing without the last ones, if these are to other keys. -/
theorem writes_left (hall : writes m (xs ++ ys) = m)
    (hother : ∀ x ∈ xs, ∀ y ∈ ys, x.1 ≠ y.1) : writes m xs = m := by
  funext k
  by_cases hk : k ∈ xs.map Prod.fst
  · have hys : k ∉ ys.map Prod.fst := by
      intro hy
      obtain ⟨x, hx, rfl⟩ := List.mem_map.1 hk
      obtain ⟨y, hy, hxy⟩ := List.mem_map.1 hy
      exact hother x hx y hy hxy.symm
    calc writes m xs k = writes (writes m xs) ys k := (writes_of_notMem hys).symm
      _ = m k := by rw [← writes_append, hall]
  · exact writes_of_notMem hk

end FacetQL
