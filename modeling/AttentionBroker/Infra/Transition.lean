import Mathlib.Data.List.Basic

/-!
# Runs of a step function

A step function takes a state and an action to the next state, or to nothing where the
action is not possible. A run takes a list of actions, so a schedule of a concurrent
program is such a list and a property of every interleaving is one of every run.

`AllSteps` is a condition on every step that a run takes, and `run_invariant` the rule for
what a step keeps under that condition.
-/

namespace Infra

variable {σ τ α : Type*} {step : σ → α → Option σ}

/-- Takes the actions one after the other. -/
def run (step : σ → α → Option σ) : σ → List α → Option σ
  | s, [] => some s
  | s, a :: as => (step s a).bind fun s' => run step s' as

/-- Every step of the run meets the condition, in the state before it. -/
def AllSteps (step : σ → α → Option σ) (Ok : σ → α → Prop) : σ → List α → Prop
  | _, [] => True
  | s, a :: as => Ok s a ∧ ∀ s', step s a = some s' → AllSteps step Ok s' as

theorem run_cons {s s' : σ} {a : α} {as : List α} (h : run step s (a :: as) = some s') :
    ∃ s₁, step s a = some s₁ ∧ run step s₁ as = some s' := by
  rwa [run, Option.bind_eq_some_iff] at h

theorem run_append (as bs : List α) : ∀ (s : σ),
    run step s (as ++ bs) = (run step s as).bind fun s' => run step s' bs := by
  induction as with
  | nil => intro s; rfl
  | cons a as ih =>
    intro s
    rw [List.cons_append, run, run, Option.bind_assoc]
    exact congrArg _ (funext ih)

theorem run_of_step {s s₁ : σ} {a : α} {as : List α} (h : step s a = some s₁) :
    run step s (a :: as) = run step s₁ as := by
  rw [run, h, Option.bind_some]

theorem run_of_run {s s₁ : σ} {as bs : List α} (h : run step s as = some s₁) :
    run step s (as ++ bs) = run step s₁ bs := by
  rw [run_append, h, Option.bind_some]

/-- The condition can be tested along the run. -/
instance AllSteps.decidable {Ok : σ → α → Prop} [∀ s a, Decidable (Ok s a)] :
    ∀ (as : List α) (s : σ), Decidable (AllSteps step Ok s as)
  | [], _ => isTrue trivial
  | a :: as, s =>
    have : Decidable (∀ s', step s a = some s' → AllSteps step Ok s' as) :=
      match h : step s a with
      | none => isTrue fun _ h' => by cases h'
      | some s₁ =>
        have : Decidable (AllSteps step Ok s₁ as) := decidable as s₁
        decidable_of_iff (AllSteps step Ok s₁ as)
          ⟨fun hs s' h' => by cases h'; exact hs, fun hs => hs s₁ rfl⟩
    inferInstanceAs (Decidable (_ ∧ _))

/-- **A step that is possible and keeps an invariant, under a condition, makes runs possible
under that condition.** -/
theorem run_total {Ok : σ → α → Prop} (Inv : σ → Prop)
    (hstep : ∀ s a, Inv s → Ok s a → ∃ s', step s a = some s' ∧ Inv s') :
    ∀ (as : List α) (s : σ), AllSteps step Ok s as → Inv s →
      ∃ s', run step s as = some s' ∧ Inv s' := by
  intro as
  induction as with
  | nil => intro s _ hs; exact ⟨s, rfl, hs⟩
  | cons a as ih =>
    intro s hok hs
    obtain ⟨s₁, h₁, hs₁⟩ := hstep s a hs hok.1
    obtain ⟨s₂, h₂, hs₂⟩ := ih s₁ (hok.2 s₁ h₁) hs₁
    exact ⟨s₂, by rw [run, h₁, Option.bind_some, h₂], hs₂⟩

/-- **A step that is possible and follows an abstract one makes runs follow the abstract run.** -/
theorem run_simulates {β : Type*} {Ok : σ → α → Prop} (R : σ → β → Prop) (next : β → α → β)
    (hstep : ∀ s b a, R s b → Ok s a → ∃ s', step s a = some s' ∧ R s' (next b a)) :
    ∀ (as : List α) (s : σ) (b : β), AllSteps step Ok s as → R s b →
      ∃ s', run step s as = some s' ∧ R s' (as.foldl next b) := by
  intro as
  induction as with
  | nil => intro s b _ h; exact ⟨s, rfl, h⟩
  | cons a as ih =>
    intro s b hok h
    obtain ⟨s₁, h₁, hs₁⟩ := hstep s b a h hok.1
    obtain ⟨s₂, h₂, hs₂⟩ := ih s₁ (next b a) (hok.2 s₁ h₁) hs₁
    exact ⟨s₂, by rw [run, h₁, Option.bind_some, h₂], hs₂⟩

/-- **What every step keeps under a condition, a run under that condition keeps.** -/
theorem run_invariant {Ok : σ → α → Prop} (Inv : σ → Prop)
    (hstep : ∀ s a s', Inv s → Ok s a → step s a = some s' → Inv s') :
    ∀ (as : List α) (s s' : σ), AllSteps step Ok s as → run step s as = some s' → Inv s →
      Inv s' := by
  intro as
  induction as with
  | nil =>
    intro s s' _ hrun hs
    rwa [← Option.some.inj hrun]
  | cons a as ih =>
    intro s s' hok hrun hs
    obtain ⟨s₁, h₁, hrest⟩ := run_cons hrun
    exact ih s₁ s' (hok.2 s₁ h₁) hrest (hstep s a s₁ hs hok.1 h₁)

theorem allSteps_of_forall {Ok : σ → α → Prop} (h : ∀ s a, Ok s a) : ∀ {as : List α} {s : σ},
    AllSteps step Ok s as := by
  intro as
  induction as with
  | nil => intro _; trivial
  | cons a as ih => intro s; exact ⟨h s a, fun s' _ => ih⟩

/-- **What every step keeps, a run keeps.** -/
theorem run_preserves (Inv : σ → Prop)
    (hstep : ∀ s a s', Inv s → step s a = some s' → Inv s') {as : List α} {s s' : σ}
    (hrun : run step s as = some s') (hs : Inv s) : Inv s' := by
  have hall : AllSteps step (fun _ _ => True) s as := allSteps_of_forall fun _ _ => trivial
  exact run_invariant Inv (fun s a s' hs _ => hstep s a s' hs) as s s' hall hrun hs

/-- **Where each step adds to a record, that of a run begins with the record of each part.** -/
theorem run_records {β : Type*} (R : σ → List β → Prop)
    (hstep : ∀ s l a s', R s l → step s a = some s' → ∃ l', R s' (l ++ l')) :
    ∀ (as : List α) (s s' : σ) (l : List β), run step s as = some s' → R s l →
      ∃ l', R s' (l ++ l') ∧ ∀ pre post s₁, as = pre ++ post → run step s pre = some s₁ →
        ∃ l₁ l₂, l' = l₁ ++ l₂ ∧ R s₁ (l ++ l₁) := by
  intro as
  induction as with
  | nil =>
    intro s s' l hrun hs
    obtain rfl := Option.some.inj hrun
    refine ⟨[], by rwa [List.append_nil], fun pre post s₁ heq hpre => ?_⟩
    obtain ⟨rfl, -⟩ := List.append_eq_nil_iff.mp heq.symm
    obtain rfl := Option.some.inj hpre
    exact ⟨[], [], rfl, by rwa [List.append_nil]⟩
  | cons a as ih =>
    intro s s' l hrun hs
    obtain ⟨s₁, h₁, hrest⟩ := run_cons hrun
    obtain ⟨l₁, hl₁⟩ := hstep s l a s₁ hs h₁
    obtain ⟨l₂, hl₂, hparts⟩ := ih s₁ s' (l ++ l₁) hrest hl₁
    refine ⟨l₁ ++ l₂, by rwa [← List.append_assoc], fun pre post s₂ heq hpre => ?_⟩
    cases pre with
    | nil =>
      obtain rfl := Option.some.inj hpre
      exact ⟨[], l₁ ++ l₂, rfl, by rwa [List.append_nil]⟩
    | cons b pre =>
      obtain ⟨rfl, rfl⟩ := List.cons.inj heq
      rw [run_of_step h₁] at hpre
      obtain ⟨l₃, l₄, rfl, hl₃⟩ := hparts pre post s₂ rfl hpre
      exact ⟨l₁ ++ l₃, l₄, (List.append_assoc ..).symm, by rwa [← List.append_assoc]⟩

/-- **Runs whose steps decrease a measure are no longer than the measure.** -/
theorem run_length_le (Inv : σ → Prop) (measure : σ → Nat)
    (hstep : ∀ s a s', Inv s → step s a = some s' → Inv s' ∧ measure s' < measure s) :
    ∀ (as : List α) (s s' : σ), run step s as = some s' → Inv s →
      as.length + measure s' ≤ measure s := by
  intro as
  induction as with
  | nil =>
    intro s s' hrun _
    obtain rfl := Option.some.inj hrun
    exact Nat.le_of_eq (Nat.zero_add _)
  | cons a as ih =>
    intro s s' hrun hs
    obtain ⟨s₁, h₁, hrest⟩ := run_cons hrun
    obtain ⟨hs₁, hlt⟩ := hstep s a s₁ hs h₁
    have hle := ih s₁ s' hrest hs₁
    rw [List.length_cons]
    omega

/-- **Until it is done, a run takes no more steps that decrease a measure than the measure**, if the
others do not increase it. -/
theorem run_count_le (Inv Done : σ → Prop) (measure : σ → Nat) (p : α → Bool)
    (hstep : ∀ s a s', Inv s → step s a = some s' → Inv s' ∧ (Done s → Done s') ∧
      measure s' ≤ measure s ∧ (p a = true → ¬ Done s → measure s' < measure s)) :
    ∀ (as : List α) (s s' : σ), run step s as = some s' → Inv s →
      Done s' ∨ as.countP p + measure s' ≤ measure s := by
  intro as
  induction as with
  | nil =>
    intro s s' hrun _
    obtain rfl := Option.some.inj hrun
    exact .inr (Nat.le_of_eq (Nat.zero_add _))
  | cons a as ih =>
    intro s s' hrun hs
    by_cases hd : Done s
    · refine .inl (run_preserves (fun s => Inv s ∧ Done s) (fun s a s' h h' => ?_) hrun ⟨hs, hd⟩).2
      exact ⟨(hstep s a s' h.1 h').1, (hstep s a s' h.1 h').2.1 h.2⟩
    obtain ⟨s₁, h₁, hrest⟩ := run_cons hrun
    obtain ⟨hs₁, -, hle, hlt⟩ := hstep s a s₁ hs h₁
    refine (ih s₁ s' hrest hs₁).imp_right fun hcount => ?_
    by_cases hp : p a = true
    · have hdrop := hlt hp hd
      rw [List.countP_cons_of_pos hp]
      omega
    · rw [List.countP_cons_of_neg hp]
      omega

/-- **Where a step that decreases a measure is possible until a final state, some run ends in
one.** -/
theorem reaches_final (Inv Final : σ → Prop) (measure : σ → Nat)
    (hprogress : ∀ s, Inv s → Final s ∨
      ∃ a s', step s a = some s' ∧ Inv s' ∧ measure s' < measure s) (s : σ) (hs : Inv s) :
    ∃ as s', run step s as = some s' ∧ Final s' := by
  induction hn : measure s using Nat.strongRecOn generalizing s with
  | ind n ih =>
    rcases hprogress s hs with hfinal | ⟨a, s₁, h₁, hs₁, hlt⟩
    · exact ⟨[], s, rfl, hfinal⟩
    · obtain ⟨as, s', hrun, hfinal⟩ := ih (measure s₁) (hn ▸ hlt) s₁ hs₁ rfl
      exact ⟨a :: as, s', (run_of_step h₁).trans hrun, hfinal⟩

/-- **Where a step is possible until a final state, some run ends in one.** -/
theorem exists_final (Inv Final : σ → Prop) (measure : σ → Nat)
    (hstep : ∀ s a s', Inv s → step s a = some s' → Inv s' ∧ measure s' < measure s)
    (hprogress : ∀ s, Inv s → Final s ∨ ∃ a s', step s a = some s') (s : σ) (hs : Inv s) :
    ∃ as s', run step s as = some s' ∧ Final s' :=
  reaches_final Inv Final measure
    (fun s hs => (hprogress s hs).imp_right fun ⟨a, s', h⟩ => ⟨a, s', h, hstep s a s' hs h⟩) s hs

/-- **What a step keeps exactly when it meets a condition, a run keeps exactly when all its steps
do.** -/
theorem allSteps_iff {Ok : σ → α → Prop} {C : σ → Prop} (Inv : σ → Prop)
    (hstep : ∀ s a s', Inv s → step s a = some s' → Inv s' ∧ (C s' ↔ C s ∧ Ok s a)) :
    ∀ (as : List α) (s s' : σ), run step s as = some s' → Inv s →
      Inv s' ∧ (C s' ↔ C s ∧ AllSteps step Ok s as) := by
  intro as
  induction as with
  | nil =>
    intro s s' hrun hs
    rw [← Option.some.inj hrun]
    exact ⟨hs, (and_iff_left trivial).symm⟩
  | cons a as ih =>
    intro s s' hrun hs
    obtain ⟨s₁, h₁, hrest⟩ := run_cons hrun
    obtain ⟨hs₁, hiff⟩ := hstep s a s₁ hs h₁
    have hall : AllSteps step Ok s (a :: as) ↔ Ok s a ∧ AllSteps step Ok s₁ as := by
      rw [AllSteps, h₁]
      simp
    obtain ⟨hs', hiff'⟩ := ih s₁ s' hrest hs₁
    exact ⟨hs', by rw [hiff', hiff, hall, and_assoc]⟩

theorem allSteps_append {Ok : σ → α → Prop} : ∀ {as bs : List α} {s : σ},
    AllSteps step Ok s (as ++ bs) ↔
      AllSteps step Ok s as ∧ ∀ s', run step s as = some s' → AllSteps step Ok s' bs := by
  intro as bs
  induction as with
  | nil =>
    intro s
    exact ⟨fun h => ⟨trivial, fun s' hs' => Option.some.inj hs' ▸ h⟩, fun h => h.2 s rfl⟩
  | cons a as ih =>
    intro s
    constructor
    · intro h
      refine ⟨⟨h.1, fun s₁ h₁ => (ih.mp (h.2 s₁ h₁)).1⟩, fun s' hs' => ?_⟩
      obtain ⟨s₁, h₁, hrest⟩ := run_cons hs'
      exact (ih.mp (h.2 s₁ h₁)).2 s' hrest
    · intro h
      refine ⟨h.1.1, fun s₁ h₁ => ih.mpr ⟨h.1.2 s₁ h₁, fun s' hs' => h.2 s' ?_⟩⟩
      rw [run_of_step h₁, hs']

/-- **Every step meets the condition** if and only if each does after the steps before it. -/
theorem allSteps_iff_split {Ok : σ → α → Prop} {as : List α} : ∀ {s : σ}, AllSteps step Ok s as ↔
    ∀ pre a post, as = pre ++ a :: post → ∀ s', run step s pre = some s' → Ok s' a := by
  induction as with
  | nil =>
    intro s
    refine ⟨fun _ pre a post h => ?_, fun _ => trivial⟩
    exact absurd h.symm (List.append_ne_nil_of_right_ne_nil _ (List.cons_ne_nil _ _))
  | cons a as ih =>
    intro s
    constructor
    · intro h pre a' post heq s' hrun
      cases pre with
      | nil =>
        obtain ⟨rfl, rfl⟩ := List.cons.inj heq
        obtain rfl := Option.some.inj hrun
        exact h.1
      | cons x pre =>
        obtain ⟨rfl, rfl⟩ := List.cons.inj heq
        obtain ⟨s₁, h₁, hrest⟩ := run_cons hrun
        exact ih.mp (h.2 s₁ h₁) pre a' post rfl s' hrest
    · intro h
      refine ⟨h [] a as rfl s rfl, fun s₁ h₁ => ih.mpr fun pre a' post heq s' hrun => ?_⟩
      exact h (a :: pre) a' post (by rw [heq, List.cons_append]) s' (by rw [run_of_step h₁, hrun])

/-- Two conditions that agree under an invariant, which each step that meets them keeps. -/
theorem AllSteps.congr {Ok Ok' : σ → α → Prop} (Inv : σ → Prop)
    (hiff : ∀ s a, Inv s → (Ok s a ↔ Ok' s a))
    (hstep : ∀ s a s', Inv s → Ok s a → step s a = some s' → Inv s') : ∀ (as : List α) (s : σ),
    Inv s → (AllSteps step Ok s as ↔ AllSteps step Ok' s as) := by
  intro as
  induction as with
  | nil => intro s _; exact Iff.rfl
  | cons a as ih =>
    intro s hs
    constructor
    · exact fun h => ⟨(hiff s a hs).mp h.1, fun s' hs' =>
        (ih s' (hstep s a s' hs h.1 hs')).mp (h.2 s' hs')⟩
    · intro h
      have hok := (hiff s a hs).mpr h.1
      exact ⟨hok, fun s' hs' => (ih s' (hstep s a s' hs hok hs')).mpr (h.2 s' hs')⟩

/-- What holds before every step holds at the start. -/
theorem AllSteps.head {P : σ → Prop} {as : List α} {s : σ} (h : AllSteps step (fun s _ => P s) s as)
    (hne : as ≠ []) : P s := by
  cases as with
  | nil => exact absurd rfl hne
  | cons a as => exact h.1

theorem AllSteps.mono {Ok Ok' : σ → α → Prop} (h : ∀ s a, Ok s a → Ok' s a) : ∀ {as : List α}
    {s : σ}, AllSteps step Ok s as → AllSteps step Ok' s as := by
  intro as
  induction as with
  | nil => intro _ _; trivial
  | cons a as ih => intro s hs; exact ⟨h s a hs.1, fun s' hs' => ih (hs.2 s' hs')⟩

theorem AllSteps.and {Ok Ok' : σ → α → Prop} : ∀ {as : List α} {s : σ}, AllSteps step Ok s as →
    AllSteps step Ok' s as → AllSteps step (fun s a => Ok s a ∧ Ok' s a) s as := by
  intro as
  induction as with
  | nil => intro _ _ _; trivial
  | cons a as ih =>
    intro s h h'
    exact ⟨⟨h.1, h'.1⟩, fun s' hs' => ih (h.2 s' hs') (h'.2 s' hs')⟩

end Infra
