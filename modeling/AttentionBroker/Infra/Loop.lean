import Mathlib.Logic.Basic

/-!
# Loops that may fail

A `while` loop is its body, a function from the loop state to the next state (`inl`) or
to the value returned (`inr`). The body may fail. `loop` runs it with a bound on the
number of iterations. `loop_ends` is the rule for how the loop ends, with a value or with an
error: an invariant that counts the iterations left shows that the bound is not what ends it.
`loop_total` is the case of a loop that does not fail. `loop_keeps` is the rule when nothing
bounds the iterations, and `loop_partial` its case of a loop that is known to have returned.
-/

namespace Infra

universe u

/-! ## Steps that may fail -/

section Steps

variable {ε α β : Type u} {x : Except ε α} {f : α → Except ε β} {b : β} {e : ε}

theorem bind_eq_ok : (x >>= f) = .ok b ↔ ∃ a, x = .ok a ∧ f a = .ok b := by
  cases x with
  | error e => exact ⟨fun h => (by cases h), fun ⟨a, h, _⟩ => (by cases h)⟩
  | ok a =>
    constructor
    · exact fun h => ⟨a, rfl, h⟩
    · rintro ⟨_, ⟨⟩, h⟩
      exact h

theorem bind_eq_error : (x >>= f) = .error e ↔ x = .error e ∨ ∃ a, x = .ok a ∧ f a = .error e := by
  cases x with
  | error e' =>
    constructor
    · rintro ⟨⟩
      exact Or.inl rfl
    · rintro (⟨⟨⟩⟩ | ⟨a, h, _⟩)
      · rfl
      · cases h
  | ok a =>
    constructor
    · exact fun h => Or.inr ⟨a, rfl, h⟩
    · rintro (h | ⟨_, ⟨⟩, h⟩)
      · cases h
      · exact h

theorem mapError_eq_ok {ε' : Type u} {g : ε → ε'} {a : α} :
    x.mapError g = .ok a ↔ x = .ok a := by
  cases x with
  | error e => exact ⟨nofun, nofun⟩
  | ok a' => exact ⟨fun h => congrArg Except.ok (Except.ok.inj h), fun h => h ▸ rfl⟩

end Steps

/-! ## Loops -/

variable {ε σ ρ : Type u}

/-- Runs `body` until it returns or fails. `out` is the error when the bound is used up. -/
def loop (out : ε) (body : σ → Except ε (σ ⊕ ρ)) : Nat → σ → Except ε ρ
  | 0, _ => .error out
  | n + 1, s =>
    match body s with
    | .error e => .error e
    | .ok (.inl s') => loop out body n s'
    | .ok (.inr r) => .ok r

/-- A loop that carries more data runs as the one without it, if every iteration does. -/
theorem loop_map {σ' ρ' : Type u} {out : ε} {body : σ → Except ε (σ ⊕ ρ)}
    {body' : σ' → Except ε (σ' ⊕ ρ')} {f : σ' → σ} {g : ρ' → ρ}
    (h : ∀ s, body (f s) = (body' s).map (Sum.map f g)) : ∀ (n : Nat) (s : σ'),
    loop out body n (f s) = (loop out body' n s).map g := by
  intro n
  induction n with
  | zero => intro s; rfl
  | succ n ih =>
    intro s
    rw [loop, loop, h]
    match body' s with
    | .error e => rfl
    | .ok (.inl s') => exact ih s'
    | .ok (.inr r) => rfl

/-- What one iteration has to establish: it does not fail, and it either returns a value
in `Post` or keeps `Inv` and makes the measure smaller. -/
def Progress (Inv : σ → Prop) (measure : σ → Nat) (Post : ρ → Prop) (s : σ) :
    Except ε (σ ⊕ ρ) → Prop
  | .error _ => False
  | .ok (.inl s') => Inv s' ∧ measure s' < measure s
  | .ok (.inr r) => Post r

theorem Progress.mono {Inv Inv' : σ → Prop} {measure : σ → Nat} {Post Post' : ρ → Prop} {s : σ} :
    ∀ {o : Except ε (σ ⊕ ρ)}, Progress Inv measure Post s o → (∀ s', Inv s' → Inv' s') →
      (∀ r, Post r → Post' r) → Progress Inv' measure Post' s o
  | .error _, h, _, _ => h.elim
  | .ok (.inl s'), h, hinv, _ => ⟨hinv s' h.1, h.2⟩
  | .ok (.inr r), h, _, hpost => hpost r h

/--
What one iteration has to establish when the loop may also end in an error.

`Inv m s` says that `s` is a state from which at most `m` more iterations start after this one.
-/
def Settles (Inv : Nat → σ → Prop) (Post : Except ε ρ → Prop) (m : Nat) :
    Except ε (σ ⊕ ρ) → Prop
  | .error e => Post (.error e)
  | .ok (.inl s') => ∃ m' < m, Inv m' s'
  | .ok (.inr r) => Post (.ok r)

/-- **A loop ends**, with a value or an error, and not because the bound is used up. -/
theorem loop_ends {out : ε} {body : σ → Except ε (σ ⊕ ρ)} {Inv : Nat → σ → Prop}
    {Post : Except ε ρ → Prop} (hbody : ∀ m s, Inv m s → Settles Inv Post m (body s)) :
    ∀ (n m : Nat) (s : σ), Inv m s → m < n → Post (loop out body n s) := by
  intro n
  induction n with
  | zero => intro m s _ hn; exact absurd hn (Nat.not_lt_zero _)
  | succ n ih =>
    intro m s hs hn
    have hb := hbody m s hs
    rw [loop]
    match h : body s with
    | .error e => rwa [h] at hb
    | .ok (.inl s') =>
      rw [h] at hb
      obtain ⟨m', hm, hs'⟩ := hb
      exact ih m' s' hs' (Nat.lt_of_lt_of_le hm (Nat.le_of_lt_succ hn))
    | .ok (.inr r) => rwa [h] at hb

/-- **Total correctness of a loop.** -/
theorem loop_total {out : ε} {body : σ → Except ε (σ ⊕ ρ)} {Inv : σ → Prop}
    {measure : σ → Nat} {Post : ρ → Prop}
    (hbody : ∀ s, Inv s → Progress Inv measure Post s (body s)) (n : Nat) (s : σ) (hs : Inv s)
    (hn : measure s < n) : ∃ r, loop out body n s = .ok r ∧ Post r := by
  have hends : ∀ m s, Inv s ∧ measure s = m → Settles (fun m s => Inv s ∧ measure s = m)
      (fun o => ∃ r, o = .ok r ∧ Post r) m (body s) := by
    rintro m s ⟨hs, rfl⟩
    have hb := hbody s hs
    match h : body s with
    | .error e => rw [h] at hb; exact hb.elim
    | .ok (.inl s') =>
      rw [h] at hb
      exact ⟨measure s', hb.2, hb.1, rfl⟩
    | .ok (.inr r) =>
      rw [h] at hb
      exact ⟨r, rfl, hb⟩
  exact loop_ends hends n _ s ⟨hs, rfl⟩ hn

/-- What one iteration has to keep when nothing is known about how long the loop runs. -/
def Keeps (Inv : σ → Prop) (Post : Except ε ρ → Prop) : Except ε (σ ⊕ ρ) → Prop
  | .error e => Post (.error e)
  | .ok (.inl s') => Inv s'
  | .ok (.inr r) => Post (.ok r)

/-- **Partial correctness of a loop**, for values and errors. -/
theorem loop_keeps {out : ε} {body : σ → Except ε (σ ⊕ ρ)} {Inv : σ → Prop}
    {Post : Except ε ρ → Prop} (hbody : ∀ s, Inv s → Keeps Inv Post (body s))
    (hout : Post (.error out)) : ∀ (n : Nat) (s : σ), Inv s → Post (loop out body n s) := by
  intro n
  induction n with
  | zero => intro s _; exact hout
  | succ n ih =>
    intro s hs
    have hb := hbody s hs
    rw [loop]
    match h : body s with
    | .error e => rwa [h] at hb
    | .ok (.inl s') => rw [h] at hb; exact ih s' hb
    | .ok (.inr r) => rwa [h] at hb

/-- **Partial correctness of a loop** that is known to have returned. -/
theorem loop_partial {out : ε} {body : σ → Except ε (σ ⊕ ρ)} {Inv : σ → Prop} {Post : ρ → Prop}
    (hnext : ∀ s s', Inv s → body s = .ok (.inl s') → Inv s')
    (hlast : ∀ s r, Inv s → body s = .ok (.inr r) → Post r) (n : Nat) (s : σ) (r : ρ)
    (hs : Inv s) (hrun : loop out body n s = .ok r) : Post r := by
  have hbody : ∀ s, Inv s → Keeps Inv (fun o => ∀ r, o = .ok r → Post r) (body s) := by
    intro s hs
    match h : body s with
    | .error e => exact fun r hr => absurd hr (by simp)
    | .ok (.inl s') => exact hnext s s' hs h
    | .ok (.inr r') => exact fun r hr => Except.ok.inj hr ▸ hlast s r' hs h
  exact loop_keeps hbody (fun r hr => absurd hr (by simp)) n s hs r hrun

end Infra
