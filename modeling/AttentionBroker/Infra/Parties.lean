import Mathlib.Algebra.BigOperators.Group.List.Basic
import Mathlib.Algebra.GroupWithZero.Nat
import Mathlib.Data.List.Perm.Basic
import AttentionBroker.Infra.Transition

/-!
# Parties that share a state

Several parties take turns on a shared state. Each has a local state, and in its turn it
reads and changes the shared state and its own. A schedule is the list of the turns, so a
property of every interleaving is one of every run of `turn`.

The lemmas say what a turn leaves of a property of all local states (`forall_set`) or of some
local state (`exists_set`), of the local state of another party (`get_set_ne`) and of a sum over
all local states (`sum_set`). A mutex is locked by one party where such a sum is one.
-/

namespace Infra

/-- A shared state and the local states of the parties. -/
structure Parties (σ ℓ : Type*) where
  shared : σ
  locals : List ℓ

namespace Parties

variable {σ ℓ ε : Type*} {act : ℓ → σ → Except ε (σ × ℓ)} {s : Parties σ ℓ} {i j : Nat} {l l' : ℓ}
  {t : σ}

/-- The turn of a party. Nothing happens where there is no such party. -/
def turn (act : ℓ → σ → Except ε (σ × ℓ)) (s : Parties σ ℓ) (i : Nat) :
    Except ε (Parties σ ℓ) :=
  match s.locals[i]? with
  | none => .ok s
  | some l =>
    match act l s.shared with
    | .ok (shared, l) => .ok { shared := shared, locals := s.locals.set i l }
    | .error e => .error e

/-- A turn as a step of a run, which a fault ends. -/
def step (act : ℓ → σ → Except ε (σ × ℓ)) (s : Parties σ ℓ) (i : Nat) : Option (Parties σ ℓ) :=
  (s.turn act i).toOption

theorem turn_ok (hl : s.locals[i]? = some l) (ha : act l s.shared = .ok (t, l')) :
    s.turn act i = .ok { shared := t, locals := s.locals.set i l' } := by
  simp only [turn, hl, ha]

theorem turn_error {e : ε} (hl : s.locals[i]? = some l) (ha : act l s.shared = .error e) :
    s.turn act i = .error e := by
  simp only [turn, hl, ha]

theorem turn_none (hl : s.locals[i]? = none) : s.turn act i = .ok s := by
  simp only [turn, hl]

theorem step_of_turn {s' : Parties σ ℓ} (h : s.turn act i = .ok s') : s.step act i = some s' := by
  rw [step, h]
  rfl

/-- A step is the turn of a party, or nothing where there is no such party. -/
theorem step_cases {s' : Parties σ ℓ} (h : s.step act i = some s') :
    s.locals[i]? = none ∧ s' = s ∨ ∃ l t l', s.locals[i]? = some l ∧
      act l s.shared = .ok (t, l') ∧ s' = { shared := t, locals := s.locals.set i l' } := by
  rw [step] at h
  cases hl : s.locals[i]? with
  | none =>
    rw [turn_none hl] at h
    exact .inl ⟨rfl, (Option.some.inj h).symm⟩
  | some l =>
    match ha : act l s.shared with
    | .ok (t, l') =>
      rw [turn_ok hl ha] at h
      exact .inr ⟨l, t, l', rfl, ha, (Option.some.inj h).symm⟩
    | .error e =>
      rw [turn_error hl ha] at h
      cases h

theorem mem_of_get (hl : s.locals[i]? = some l) : l ∈ s.locals := List.mem_of_getElem? hl

theorem forall_set {P : ℓ → Prop} (h : ∀ x ∈ s.locals, P x) (hl' : P l') :
    ∀ x ∈ s.locals.set i l', P x := by
  intro x hx
  rcases List.mem_or_eq_of_mem_set hx with hx | rfl
  · exact h x hx
  · exact hl'

theorem get_set_self (hl : s.locals[i]? = some l) (l' : ℓ) :
    (s.locals.set i l')[i]? = some l' := by
  obtain ⟨hi, -⟩ := List.getElem?_eq_some_iff.mp hl
  exact List.getElem?_set_self hi

theorem get_set_ne (hij : i ≠ j) (l' : ℓ) : (s.locals.set i l')[j]? = s.locals[j]? :=
  List.getElem?_set_ne hij

/-- A step leaves the local states of the others alone. -/
theorem step_get_ne {s' : Parties σ ℓ} (h : s.step act i = some s') (hij : i ≠ j) :
    s'.locals[j]? = s.locals[j]? := by
  obtain ⟨-, rfl⟩ | ⟨l, t, l', -, -, rfl⟩ := step_cases h
  · rfl
  · exact get_set_ne hij l'

/-- The local states of the other parties. -/
def others (s : Parties σ ℓ) (i : Nat) : List ℓ := s.locals.eraseIdx i

theorem perm_others (hl : s.locals[i]? = some l) : s.locals.Perm (l :: s.others i) := by
  obtain ⟨hi, rfl⟩ := List.getElem?_eq_some_iff.mp hl
  exact (List.getElem_cons_eraseIdx_perm hi).symm

theorem set_perm_others (hl : s.locals[i]? = some l) (l' : ℓ) :
    (s.locals.set i l').Perm (l' :: s.others i) := by
  obtain ⟨hi, -⟩ := List.getElem?_eq_some_iff.mp hl
  exact List.set_perm_cons_eraseIdx hi l'

theorem exists_locals (hl : s.locals[i]? = some l) {P : ℓ → Prop} :
    (∃ x ∈ s.locals, P x) ↔ P l ∨ ∃ x ∈ s.others i, P x := by
  simp only [(perm_others hl).mem_iff, List.mem_cons, exists_eq_or_imp]

theorem exists_set (hl : s.locals[i]? = some l) (l' : ℓ) {P : ℓ → Prop} :
    (∃ x ∈ s.locals.set i l', P x) ↔ P l' ∨ ∃ x ∈ s.others i, P x := by
  simp only [(set_perm_others hl l').mem_iff, List.mem_cons, exists_eq_or_imp]

theorem forall_locals (hl : s.locals[i]? = some l) {P : ℓ → Prop} :
    (∀ x ∈ s.locals, P x) ↔ P l ∧ ∀ x ∈ s.others i, P x := by
  simp only [(perm_others hl).mem_iff, List.forall_mem_cons]

theorem forall_set_others (hl : s.locals[i]? = some l) (l' : ℓ) {P : ℓ → Prop} :
    (∀ x ∈ s.locals.set i l', P x) ↔ P l' ∧ ∀ x ∈ s.others i, P x := by
  simp only [(set_perm_others hl l').mem_iff, List.forall_mem_cons]

section sum

variable {M : Type*} (f : ℓ → M)

theorem sum_locals [AddCommMonoid M] (hl : s.locals[i]? = some l) :
    (s.locals.map f).sum = f l + ((s.others i).map f).sum :=
  ((perm_others hl).map f).sum_eq

theorem sum_set_others [AddCommMonoid M] (hl : s.locals[i]? = some l) (l' : ℓ) :
    ((s.locals.set i l').map f).sum = f l' + ((s.others i).map f).sum :=
  ((set_perm_others hl l').map f).sum_eq

/-- A sum over the parties changes by what the turn changes at its own party. -/
theorem sum_set [AddCommGroup M] (hl : s.locals[i]? = some l) (l' : ℓ) :
    ((s.locals.set i l').map f).sum = (s.locals.map f).sum - f l + f l' := by
  rw [sum_set_others f hl, sum_locals f hl, add_sub_cancel_left, add_comm]

end sum

/-! ## A mutex that one party holds -/

/-- Who holds the mutex has locked it. -/
theorem locked_of_holds {holds : ℓ → Bool} {locked : Bool}
    (h : (s.locals.map fun l => (holds l).toNat).sum = locked.toNat) (hl : s.locals[i]? = some l)
    (hh : holds l = true) : locked = true := by
  rw [sum_locals _ hl, hh] at h
  cases locked with
  | true => rfl
  | false => exact absurd h (by simp)

/-- A mutex that is locked has a holder. -/
theorem exists_holder {holds : ℓ → Bool} {locked : Bool}
    (h : (s.locals.map fun l => (holds l).toNat).sum = locked.toNat) (hlocked : locked = true) :
    ∃ (i : Nat) (l : ℓ), s.locals[i]? = some l ∧ holds l = true := by
  by_contra hnone
  push Not at hnone
  have hzero : (s.locals.map fun l => (holds l).toNat).sum = 0 := by
    refine List.sum_eq_zero fun n hn => ?_
    obtain ⟨l, hl, rfl⟩ := List.mem_map.mp hn
    obtain ⟨i, hi⟩ := List.mem_iff_getElem?.mp hl
    rw [Bool.not_eq_true _ |>.mp (hnone i l hi)]
    rfl
  rw [hzero, hlocked] at h
  cases h

/-! ## Runs that end -/

theorem step_length {s' : Parties σ ℓ} (h : s.step act i = some s') :
    s'.locals.length = s.locals.length := by
  obtain ⟨-, rfl⟩ | ⟨l, t, l', -, -, rfl⟩ := step_cases h
  · rfl
  · exact List.length_set

/-- **Where the turns decrease a measure and one is possible until a final state**, a run makes a
bounded number of turns, and goes on until it ends. -/
theorem run_ends (Inv Final : Parties σ ℓ → Prop) (measure : Parties σ ℓ → Nat)
    (hstep : ∀ s i s', Inv s → s.step act i = some s' → Inv s' ∧ measure s' ≤ measure s ∧
      (i < s.locals.length → measure s' < measure s))
    (hprogress : ∀ s, Inv s → Final s ∨ ∃ i < s.locals.length, ∃ s', s.step act i = some s')
    {schedule : List Nat} {s' : Parties σ ℓ} (hrun : run (step act) s schedule = some s')
    (hs : Inv s) : Inv s' ∧ schedule.countP (· < s.locals.length) ≤ measure s ∧
      (Final s' ∨ ∃ i < s.locals.length, ∃ s'', s'.step act i = some s'') ∧
      ∃ rest s'', run (step act) s' rest = some s'' ∧ Final s'' := by
  have hkeep : ∀ (x : Parties σ ℓ) i x', (Inv x ∧ x.locals.length = s.locals.length) →
      x.step act i = some x' → (Inv x' ∧ x'.locals.length = s.locals.length) ∧
        (False → False) ∧ measure x' ≤ measure x ∧
        (decide (i < s.locals.length) = true → ¬ False → measure x' < measure x) := by
    rintro x i x' ⟨hx, hlen⟩ hx'
    obtain ⟨hinv, hle, hlt⟩ := hstep x i x' hx hx'
    exact ⟨⟨hinv, (step_length hx').trans hlen⟩, id, hle,
      fun hi _ => hlt (hlen ▸ of_decide_eq_true hi)⟩
  obtain ⟨hinv, hlen⟩ := run_preserves
    (fun x : Parties σ ℓ => Inv x ∧ x.locals.length = s.locals.length)
    (fun x i x' hx hx' => (hkeep x i x' hx hx').1) hrun ⟨hs, rfl⟩
  refine ⟨hinv, ?_, hlen ▸ hprogress s' hinv, ?_⟩
  · have hcount := run_count_le _ (fun _ => False) measure (fun i => decide (i < s.locals.length))
      hkeep schedule s s' hrun ⟨hs, rfl⟩
    exact Nat.le_of_add_right_le (hcount.resolve_left id)
  · refine reaches_final Inv Final measure (fun x hx => ?_) s' hinv
    refine (hprogress x hx).imp_right fun ⟨i, hi, x', hx'⟩ => ?_
    obtain ⟨hinv', -, hlt⟩ := hstep x i x' hx hx'
    exact ⟨i, x', hx', hinv', hlt hi⟩

end Parties

end Infra
