import Mathlib.Data.Finset.Basic

/-!
# Calls on mutexes

A thread makes calls on the mutexes of some objects. The mutexes are not recursive, so a thread
that locks what it holds waits for ever, and to unlock what it does not hold is undefined.
`Disciplined` is the discipline of one thread: neither of the two happens, and a lock is only
taken where `may` allows it, given the state of that moment and the locks held.
-/

namespace Infra

/-- A call on the mutex of an object. A lock is noted with the state it is taken in. -/
inductive MutexCall (σ α : Type*) where
  | lock (s : σ) (a : α)
  | unlock (a : α)

variable {σ α : Type*} [DecidableEq α] {may : σ → Finset α → α → Prop}
  {calls : List (MutexCall σ α)} {held : Finset α} {s : σ} {a b : α}

/-- The calls of a thread that started without locks, and the locks it holds after them. -/
inductive Disciplined (may : σ → Finset α → α → Prop) :
    List (MutexCall σ α) → Finset α → Prop
  | nil : Disciplined may [] ∅
  | lock {calls : List (MutexCall σ α)} {held : Finset α} {s : σ} {a : α}
      (h : Disciplined may calls held) (hnew : a ∉ held) (hmay : may s held a) :
      Disciplined may (calls ++ [.lock s a]) (insert a held)
  | unlock {calls : List (MutexCall σ α)} {held : Finset α} {a : α}
      (h : Disciplined may calls held) (ha : a ∈ held) :
      Disciplined may (calls ++ [.unlock a]) (held.erase a)

namespace Disciplined

/-- A thread without locks may take any lock that it is allowed to. -/
theorem lock_first (h : Disciplined may calls ∅) (hmay : may s ∅ a) :
    Disciplined may (calls ++ [.lock s a]) {a} :=
  h.lock (Finset.notMem_empty a) hmay

/-- A thread with one lock releases it. -/
theorem unlock_last (h : Disciplined may calls {a}) :
    Disciplined may (calls ++ [.unlock a]) ∅ := by
  have hlast := h.unlock (Finset.mem_singleton_self a)
  rwa [Finset.erase_singleton] at hlast

/-- Of two locks the first is released. -/
theorem unlock_left (h : Disciplined may calls {a, b}) (hab : a ≠ b) :
    Disciplined may (calls ++ [.unlock a]) {b} := by
  have hrest := h.unlock (Finset.mem_insert_self a {b})
  rwa [Finset.erase_insert (by simpa using hab)] at hrest

/-- Of two locks the second is released. -/
theorem unlock_right (h : Disciplined may calls {a, b}) (hab : a ≠ b) :
    Disciplined may (calls ++ [.unlock b]) {a} :=
  unlock_left (Finset.pair_comm a b ▸ h) hab.symm

/-- The lock of a third object takes the place of the first. -/
theorem lock_replace {c : α} (h : Disciplined may calls {a, b}) (hab : a ≠ b)
    (hc : c ∉ ({a, b} : Finset α)) (hmay : may s {a, b} c) :
    Disciplined may (calls ++ [.lock s c] ++ [.unlock a]) {c, b} := by
  have hca : c ≠ a := fun h => hc (h ▸ Finset.mem_insert_self a {b})
  have hrest := (h.lock hc hmay).unlock (Finset.mem_insert_of_mem (Finset.mem_insert_self a {b}))
  rwa [Finset.erase_insert_of_ne hca, Finset.erase_insert (by simpa using hab)] at hrest

/-- The lock of the first object is released if it is another one than the second. -/
theorem unlock_ne (h : Disciplined may calls {a, b}) :
    Disciplined may (if b ≠ a then calls ++ [.unlock a] else calls) {b} := by
  by_cases hab : b = a
  · subst hab
    simpa using h
  · rw [if_pos hab]
    exact h.unlock_left (Ne.symm hab)

/-- Both locks are released, or the one that there is. -/
theorem unlock_both (h : Disciplined may calls {a, b}) :
    Disciplined may (if b ≠ a then calls ++ [.unlock a] ++ [.unlock b]
      else calls ++ [.unlock a]) ∅ := by
  by_cases hab : b = a
  · subst hab
    rw [if_neg (not_not.mpr rfl)]
    exact unlock_last (by simpa using h)
  · rw [if_pos hab]
    exact (h.unlock_left (Ne.symm hab)).unlock_last

end Disciplined

end Infra
