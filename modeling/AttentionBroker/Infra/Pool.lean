import Mathlib.Logic.Function.Basic

/-!
# Object pools

A pool is the part of a heap that holds objects of one class. An address is a number,
`new` takes the next unused one and an address is never used twice, so two pointers are
equal exactly when they came from the same `new`.
-/

namespace Infra

/-- Objects of one class, by address. Cells from `next` on are not allocated yet. -/
structure Pool (α : Type*) where
  cell : Nat → α
  next : Nat

namespace Pool

variable {α : Type*}

/-- No object allocated. -/
def empty (blank : α) : Pool α := { cell := fun _ => blank, next := 0 }

/-- Writes the object at `a`. -/
def set (h : Pool α) (a : Nat) (x : α) : Pool α := { h with cell := Function.update h.cell a x }

/-- Changes the object at `a` in place. -/
def modify (h : Pool α) (a : Nat) (f : α → α) : Pool α := h.set a (f (h.cell a))

/-- `new`: the pool with the object in it. Its address is the old `next`. -/
def alloc (h : Pool α) (x : α) : Pool α :=
  { cell := Function.update h.cell h.next x, next := h.next + 1 }

@[simp] theorem empty_next (b : α) : (empty b).next = 0 := rfl
@[simp] theorem empty_cell (b : α) (a : Nat) : (empty b).cell a = b := rfl
@[simp] theorem set_next (h : Pool α) (a : Nat) (x : α) : (h.set a x).next = h.next := rfl
@[simp] theorem modify_next (h : Pool α) (a : Nat) (f : α → α) : (h.modify a f).next = h.next := rfl
@[simp] theorem alloc_next (h : Pool α) (x : α) : (h.alloc x).next = h.next + 1 := rfl

@[simp] theorem set_cell_self (h : Pool α) (a : Nat) (x : α) : (h.set a x).cell a = x := by
  simp [set]

theorem set_cell_ne (h : Pool α) {a b : Nat} (x : α) (hb : b ≠ a) :
    (h.set a x).cell b = h.cell b := by
  simp [set, hb]

@[simp] theorem modify_cell_self (h : Pool α) (a : Nat) (f : α → α) :
    (h.modify a f).cell a = f (h.cell a) := by
  simp [modify]

theorem modify_cell_ne (h : Pool α) {a b : Nat} (f : α → α) (hb : b ≠ a) :
    (h.modify a f).cell b = h.cell b :=
  set_cell_ne h _ hb

theorem modify_modify (h : Pool α) (a : Nat) (f g : α → α) :
    (h.modify a f).modify a g = h.modify a fun x => g (f x) := by
  simp [modify, set]

/-- A change that keeps a field of the object keeps that field everywhere. -/
theorem modify_cell_proj {β : Type*} (h : Pool α) (a b : Nat) (f : α → α) (g : α → β)
    (hf : ∀ x, g (f x) = g x) : g ((h.modify a f).cell b) = g (h.cell b) := by
  by_cases hb : b = a
  · rw [hb, modify_cell_self, hf]
  · rw [modify_cell_ne h f hb]

@[simp] theorem alloc_cell_next (h : Pool α) (x : α) : (h.alloc x).cell h.next = x := by
  simp [alloc]

theorem alloc_cell_ne (h : Pool α) {a : Nat} (x : α) (ha : a ≠ h.next) :
    (h.alloc x).cell a = h.cell a := by
  simp [alloc, ha]

theorem alloc_cell_lt (h : Pool α) {a : Nat} (x : α) (ha : a < h.next) :
    (h.alloc x).cell a = h.cell a :=
  alloc_cell_ne h x (Nat.ne_of_lt ha)

end Pool

/-! ## Names of objects -/

/-- The addresses of names are allocated, and no address has two names. -/
structure Named {β : Type*} (ref : β → Option Nat) (next : Nat) : Prop where
  lt : ∀ p a, ref p = some a → a < next
  inj : ∀ p q a, ref p = some a → ref q = some a → p = q

namespace Named

variable {β : Type*} {ref ref' : β → Option Nat} {next r a : Nat} {p q : β}

/-- An address that `p` had already, or the next unused one, is of no other name. -/
theorem ne (hn : Named ref next) (hr : ref p = some r ∨ ref p = none ∧ r = next)
    (hq : ref q = some a) (hqp : q ≠ p) : a ≠ r := by
  rintro rfl
  rcases hr with hr | ⟨-, rfl⟩
  · exact hqp (hn.inj q p a hq hr)
  · exact absurd (hn.lt q a hq) (Nat.lt_irrefl a)

/-- Binding `p` to such an address keeps names apart. -/
theorem bind [DecidableEq β] (hn : Named ref next)
    (hr : ref p = some r ∨ ref p = none ∧ r = next)
    (hbind : ∀ q, ref' q = if q = p then some r else ref q) : Named ref' (next + 1) := by
  have hself : ref' p = some r := by rw [hbind, if_pos rfl]
  have hother : ∀ q, q ≠ p → ref' q = ref q := fun q hq => by rw [hbind, if_neg hq]
  constructor
  · intro q a ha
    by_cases hq : q = p
    · rw [hq, hself, Option.some.injEq] at ha
      rw [← ha]
      rcases hr with hr | ⟨-, rfl⟩
      · exact Nat.lt_succ_of_lt (hn.lt p r hr)
      · exact Nat.lt_succ_self r
    · rw [hother q hq] at ha
      exact Nat.lt_succ_of_lt (hn.lt q a ha)
  · intro q q' a ha ha'
    by_cases hq : q = p <;> by_cases hq' : q' = p
    · exact hq.trans hq'.symm
    · rw [hq, hself, Option.some.injEq] at ha
      rw [hother q' hq'] at ha'
      exact absurd ha.symm (hn.ne hr ha' hq')
    · rw [hq', hself, Option.some.injEq] at ha'
      rw [hother q hq] at ha
      exact absurd ha'.symm (hn.ne hr ha hq)
    · rw [hother q hq] at ha
      rw [hother q' hq'] at ha'
      exact hn.inj q q' a ha ha'

end Named

end Infra
