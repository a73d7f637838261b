import Mathlib.Algebra.Order.Group.Multiset
import Mathlib.Data.Finset.Basic
import AttentionBroker.Infra.Parties

/-!
# Mutexes and their owners

Parties that lock and unlock mutexes of a set. `Exchanges` says which ones a party gives up and
which ones it has then. `Owned` is the invariant: each mutex that is locked has one owner.
-/

namespace Infra

variable {α : Type*} [DecidableEq α]

/-- A party gives up the mutexes `held` and has `held'` then. -/
def Exchanges (held held' locked locked' : Finset α) : Prop :=
  locked' = locked \ held ∪ held' ∧ Disjoint (locked \ held) held'

namespace Exchanges

variable {a : α} {held held' locked locked' : Finset α}

theorem refl (h : held ⊆ locked) : Exchanges held held locked locked :=
  ⟨(Finset.sdiff_union_of_subset h).symm, Finset.sdiff_disjoint⟩

/-- Nothing new is locked. -/
theorem release (h : held ⊆ locked) (hsub : held' ⊆ held) :
    Exchanges held held' locked (locked \ (held \ held')) := by
  refine ⟨?_, Finset.disjoint_of_subset_right hsub Finset.sdiff_disjoint⟩
  ext x
  have hx := @h x
  have hx' := @hsub x
  simp only [Finset.mem_sdiff, Finset.mem_union]
  tauto

/-- One more mutex is locked. -/
theorem acquire (h : held ⊆ locked) (ha : a ∉ locked) (hheld : held' = insert a held) :
    Exchanges held held' locked (insert a locked) := by
  subst hheld
  refine ⟨?_, ?_⟩
  · ext x
    have hx := @h x
    simp only [Finset.mem_sdiff, Finset.mem_union, Finset.mem_insert]
    tauto
  · rw [Finset.disjoint_insert_right]
    exact ⟨fun hmem => ha (Finset.mem_sdiff.mp hmem).1, Finset.sdiff_disjoint⟩

end Exchanges

end Infra

namespace Infra.Parties

variable {α σ ℓ : Type*} {held : ℓ → Finset α} {locked locked' : Finset α} {s : Parties σ ℓ}
  {i : Nat} {l l' : ℓ}

/-- Each mutex that is locked is one party's. -/
def Owned (held : ℓ → Finset α) (locked : Finset α) (locals : List ℓ) : Prop :=
  locked.val = (locals.map fun l => (held l).val).sum

theorem mem_sum_held {a : α} {ls : List ℓ} :
    a ∈ (ls.map fun l => (held l).val).sum ↔ ∃ l ∈ ls, a ∈ held l := by
  induction ls with
  | nil => simp
  | cons l ls ih => simp [ih]

namespace Owned

theorem start {ls : List ℓ} (h : ∀ l ∈ ls, held l = ∅) : Owned held ∅ ls := by
  unfold Owned
  rw [List.sum_eq_zero, Finset.empty_val]
  intro x hx
  obtain ⟨l, hl, rfl⟩ := List.mem_map.mp hx
  rw [h l hl, Finset.empty_val]

theorem mem_iff (h : Owned held locked s.locals) {a : α} :
    a ∈ locked ↔ ∃ l ∈ s.locals, a ∈ held l := by
  rw [← Finset.mem_val, h, mem_sum_held]

theorem subset (h : Owned held locked s.locals) (hl : l ∈ s.locals) : held l ⊆ locked :=
  fun _ ha => h.mem_iff.mpr ⟨l, hl, ha⟩

/-- **No mutex has two owners.** -/
theorem disjoint (h : Owned held locked s.locals) (hl : s.locals[i]? = some l) :
    ∀ l' ∈ s.others i, Disjoint (held l') (held l) := by
  intro l' hl'
  have hnodup := locked.nodup
  rw [h, sum_locals _ hl, Multiset.nodup_add, Multiset.disjoint_left] at hnodup
  rw [Finset.disjoint_left]
  exact fun a ha hal => hnodup.2.2 hal (mem_sum_held.mpr ⟨l', hl', ha⟩)

/-- **A turn that exchanges mutexes keeps the owners apart.** -/
theorem exchange [DecidableEq α] (h : Owned held locked s.locals) (hl : s.locals[i]? = some l)
    (he : Exchanges (held l) (held l') locked locked') :
    Owned held locked' (s.locals.set i l') := by
  obtain ⟨rfl, hdisj⟩ := he
  unfold Owned at h ⊢
  rw [sum_locals _ hl, Multiset.add_comm] at h
  rw [sum_set_others _ hl, ← Finset.disjUnion_eq_union _ _ hdisj]
  show (locked \ held l).val + (held l').val = _
  rw [Finset.sdiff_val, h, Multiset.add_sub_cancel_right, Multiset.add_comm]

end Owned

end Infra.Parties
