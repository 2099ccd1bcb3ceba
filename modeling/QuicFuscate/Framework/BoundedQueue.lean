import Mathlib.Data.List.Induction

/-!
# Bounded queues

A queue that drops its oldest entry when it has exactly `k` entries at a push.  With `k = 0` that
never happens, since an empty queue has nothing to drop and the test fails from then on.
-/

namespace QuicFuscate.Framework

variable {α : Type}

def pushBounded (k : ℕ) (queue : List α) (x : α) : List α :=
  (if queue.length = k then queue.drop 1 else queue) ++ [x]

theorem length_pushBounded_eq_ite {k : ℕ} (hk : 1 ≤ k) (queue : List α) (x : α) :
    (pushBounded k queue x).length = if queue.length = k then k else queue.length + 1 := by
  rw [pushBounded]
  split
  · simp only [List.length_append, List.length_drop, List.length_singleton]
    omega
  · exact List.length_append

theorem length_pushBounded {k : ℕ} {queue : List α} (hk : 1 ≤ k) (h : queue.length ≤ k) (x : α) :
    (pushBounded k queue x).length = min (queue.length + 1) k := by
  rw [length_pushBounded_eq_ite hk]
  split <;> omega

theorem mem_pushBounded {k : ℕ} {queue : List α} {x y : α} (h : y ∈ pushBounded k queue x) :
    y ∈ queue ∨ y = x := by
  rw [pushBounded, List.mem_append, List.mem_singleton] at h
  refine h.imp_left fun hold => ?_
  split at hold
  · exact List.mem_of_mem_drop hold
  · exact hold

theorem pushBounded_drop {k : ℕ} (hk : 1 ≤ k) (xs : List α) (x : α) :
    pushBounded k (xs.drop (xs.length - k)) x = (xs ++ [x]).drop ((xs ++ [x]).length - k) := by
  rw [pushBounded, List.length_drop, List.length_append, List.length_singleton]
  split
  · rename_i hfull
    rw [List.drop_drop, List.drop_append_of_le_length (by omega)]
    congr 2
    omega
  · rename_i hroom
    have hlen : xs.length < k := by omega
    rw [Nat.sub_eq_zero_of_le (Nat.le_of_lt hlen), Nat.sub_eq_zero_of_le (by omega), List.drop_zero, List.drop_zero]

theorem foldl_pushBounded {k : ℕ} (hk : 1 ≤ k) (xs : List α) :
    xs.foldl (pushBounded k) [] = xs.drop (xs.length - k) := by
  induction xs using List.reverseRecOn with
  | nil => simp
  | append_singleton xs x ih => rw [List.foldl_append, ih, List.foldl_cons, List.foldl_nil, pushBounded_drop hk]

theorem foldl_pushBounded_zero (xs : List α) : xs.foldl (pushBounded 0) [] = xs := by
  induction xs using List.reverseRecOn with
  | nil => rfl
  | append_singleton xs x ih =>
      rw [List.foldl_append, ih, List.foldl_cons, List.foldl_nil, pushBounded]
      cases xs with
      | nil => rfl
      | cons y ys => rw [if_neg (by simp)]

theorem mem_foldl_pushBounded {k : ℕ} {xs queue : List α} {x : α}
    (h : x ∈ xs.foldl (pushBounded k) queue) : x ∈ queue ∨ x ∈ xs := by
  induction xs generalizing queue with
  | nil => exact .inl h
  | cons y xs ih =>
      rcases ih h with hqueue | hxs
      · rcases mem_pushBounded hqueue with hold | rfl
        · exact .inl hold
        · exact .inr List.mem_cons_self
      · exact .inr (List.mem_cons_of_mem y hxs)

end QuicFuscate.Framework
