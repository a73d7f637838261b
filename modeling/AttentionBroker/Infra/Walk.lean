import Mathlib.Data.List.Induction

/-!
# Walks through a graph of slots

`kids a c` is the node in slot `c` of node `a`. A walk follows a list of slots. A graph
in which two different walks from the root never meet is a tree, and then a node is
known by the one path that leads to it.

`walk_graft` is the frame rule of pointer surgery: writing one slot of one node changes
only the walks that go through that slot.
-/

namespace Infra

universe u v

variable {A : Type u} {S : Type v} {kids kids' : A → S → Option A}

/-- The node reached from `a` along the slots of the list, if there is one. -/
def walk (kids : A → S → Option A) : A → List S → Option A
  | a, [] => some a
  | a, c :: p => (kids a c).bind fun b => walk kids b p

@[simp] theorem walk_nil (a : A) : walk kids a [] = some a := rfl

theorem walk_cons (a : A) (c : S) (p : List S) :
    walk kids a (c :: p) = (kids a c).bind fun b => walk kids b p := rfl

theorem walk_append (p q : List S) : ∀ a : A,
    walk kids a (p ++ q) = (walk kids a p).bind fun b => walk kids b q := by
  induction p with
  | nil => intro a; rfl
  | cons c p ih =>
    intro a
    rw [List.cons_append, walk_cons, walk_cons, Option.bind_assoc]
    exact Option.bind_congr fun b _ => ih b

theorem walk_snoc (a : A) (p : List S) (c : S) :
    walk kids a (p ++ [c]) = (walk kids a p).bind fun b => kids b c := by
  rw [walk_append]
  exact Option.bind_congr fun b _ => by simp [walk_cons]

/-- Every node on the way to a node is there. -/
theorem walk_prefix {a b : A} {p q : List S} (h : walk kids a (p ++ q) = some b) :
    ∃ x, walk kids a p = some x ∧ walk kids x q = some b := by
  rw [walk_append] at h
  exact Option.bind_eq_some_iff.mp h

/-- Nothing is below a node that has no children. -/
theorem walk_below_none {a x : A} {p q : List S} (hx : walk kids a p = some x)
    (hk : ∀ c, kids x c = none) (hq : q ≠ []) : walk kids a (p ++ q) = none := by
  rw [walk_append, hx, Option.bind_some]
  cases q with
  | nil => exact absurd rfl hq
  | cons c q => rw [walk_cons, hk c, Option.bind_none]

/-- Nothing is below an empty slot. -/
theorem walk_slot_none {a x : A} {p q : List S} {c : S} (hx : walk kids a p = some x)
    (hk : kids x c = none) : walk kids a (p ++ c :: q) = none := by
  rw [walk_append, hx, Option.bind_some, walk_cons, hk, Option.bind_none]

/-- Two different walks from the root do not meet. -/
def TreeLike (kids : A → S → Option A) (root : A) : Prop :=
  ∀ p q a, walk kids root p = some a → walk kids root q = some a → p = q

/--
**The frame rule of pointer surgery.**

`a` is the node at `p`. If only its slot `c` is written, every walk that does not go
through that slot is what it was.
-/
theorem walk_graft {root a : A} {p : List S} {c : S} (htree : TreeLike kids root)
    (ha : walk kids root p = some a) (hself : ∀ d, d ≠ c → kids' a d = kids a d)
    (hother : ∀ q x, walk kids root q = some x → x ≠ a → kids' x = kids x) :
    ∀ q : List S, ¬ (p ++ [c]) <+: q → walk kids' root q = walk kids root q := by
  intro q
  induction q using List.reverseRecOn with
  | nil => intro _; rfl
  | append_singleton q d ih =>
    intro hq
    have hq' : ¬ (p ++ [c]) <+: q := fun h => hq (h.trans (List.prefix_append q [d]))
    rw [walk_snoc, walk_snoc, ih hq']
    refine Option.bind_congr fun x hx => ?_
    by_cases hxa : x = a
    · subst hxa
      have hqp : q = p := htree _ _ _ hx ha
      refine hself d fun hd => hq ?_
      subst hqp hd
      exact List.prefix_rfl
    · rw [hother q x hx hxa]

/-- Walks through the written slot continue in the new graph. -/
theorem walk_graft_below {root a : A} {p : List S} {c : S} (htree : TreeLike kids root)
    (ha : walk kids root p = some a) (hself : ∀ d, d ≠ c → kids' a d = kids a d)
    (hother : ∀ q x, walk kids root q = some x → x ≠ a → kids' x = kids x) (r : List S) :
    walk kids' root (p ++ c :: r) = (kids' a c).bind fun b => walk kids' b r := by
  have hp : walk kids' root p = some a := by
    have hpc : ¬ (p ++ [c]) <+: p := fun h => by
      have hlen := h.length_le
      rw [List.length_append, List.length_singleton] at hlen
      omega
    rw [walk_graft htree ha hself hother p hpc, ha]
  rw [walk_append, hp, Option.bind_some, walk_cons]

end Infra
