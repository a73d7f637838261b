import AttentionBroker.Trie.Refinement
import AttentionBroker.Infra.Transition

/-!
# Readers that overlap insertions

`lookup` and `traverse` hold one mutex at a time. Between two nodes they only keep their
local variables, and other threads may run complete insertions there. `Overlapped` is that:
a schedule is a list of insertions and visits, and a visit is one iteration of the loop of
the reader.

`Reads.run` is the rule for both readers. An invariant has to survive a visit and, since an
insertion is known by `Extends` only, everything that extends the trie.

The second half of the module uses it for `lookup`, which takes a key of any bytes.
`lookup_overlapped_iff` says that all its answers are right exactly if the key is one that can
be inserted.
-/

namespace AttentionBroker.HandleTrie

open Infra

variable {ρ σ α β : Type}

/-! ## The schedule -/

/-- A trie, the store of its objects, and the local variables of a reader or its result. -/
structure Overlapped (ρ σ α β : Type) where
  trie : HandleTrie ρ
  store : σ
  reader : α ⊕ β

/-- What happens next: a complete insertion, or a visit of the reader. -/
inductive Action (ρ : Type) where
  | insert (key : Key) (value : ρ)
  | visit
deriving DecidableEq

/-- Insertions are of handles. -/
def Action.Valid (keySize : Nat) : Action ρ → Prop
  | .insert key _ => ValidKey keySize key
  | .visit => True

instance Action.decidableValid (n : Nat) : DecidablePred (Action.Valid (ρ := ρ) n)
  | .insert key _ => inferInstanceAs (Decidable (ValidKey n key))
  | .visit => isTrue trivial

/-- The number of visits in a schedule. -/
def visits : List (Action ρ) → Nat
  | [] => 0
  | .insert _ _ :: as => visits as
  | .visit :: as => visits as + 1

namespace Overlapped

variable {ops : TrieValue ρ σ} {body : HandleTrie ρ → α → Except Fault (α ⊕ β)}
  {s s' : Overlapped ρ σ α β}

/-- One action. The run is over when the reader has returned or fails. -/
def step (ops : TrieValue ρ σ) (body : HandleTrie ρ → α → Except Fault (α ⊕ β))
    (s : Overlapped ρ σ α β) : Action ρ → Option (Overlapped ρ σ α β)
  | .insert key value =>
    match s.reader, s.trie.insert ops key value s.store with
    | .inl _, .ok (_, trie, store) => some { s with trie := trie, store := store }
    | _, _ => none
  | .visit =>
    match s.reader with
    | .inl st =>
      match body s.trie st with
      | .ok reader => some { s with reader := reader }
      | .error _ => none
    | .inr _ => none

theorem step_insert {st : α} {key : Key} {value v : ρ} {trie : HandleTrie ρ} {store : σ}
    (hr : s.reader = .inl st)
    (hi : s.trie.insert ops key value s.store = .ok (v, trie, store)) :
    s.step ops body (.insert key value) = some { s with trie := trie, store := store } := by
  simp only [step, hr, hi]

theorem step_visit {st : α} {reader : α ⊕ β} (hr : s.reader = .inl st)
    (hb : body s.trie st = .ok reader) :
    s.step ops body .visit = some { s with reader := reader } := by
  simp only [step, hr, hb]

theorem step_returned {o : β} (hr : s.reader = .inr o) (a : Action ρ) :
    s.step ops body a = none := by
  cases a <;> simp only [step, hr]

/-- Nothing comes after the return. -/
theorem run_returned {o : β} (hr : s.reader = .inr o) {as : List (Action ρ)}
    (h : run (step ops body) s as = some s') : as = [] ∧ s' = s := by
  cases as with
  | nil => exact ⟨rfl, (Option.some.inj h).symm⟩
  | cons a as =>
    rw [run, step_returned hr] at h
    exact absurd h (by simp)

end Overlapped

/-- What a loop invariant has to survive when complete insertions run between the iterations. -/
structure Reads (body : HandleTrie ρ → α → Except Fault (α ⊕ β)) (Inv : HandleTrie ρ → α → Prop)
    (measure : HandleTrie ρ → α → Nat) (Post : HandleTrie ρ → β → Prop) : Prop where
  visit : ∀ t st, t.Wf → Inv t st → Progress (Inv t) (measure t) (Post t) st (body t st)
  extend : ∀ t t' st, t.Wf → t'.Wf → Extends t t' → Inv t st →
    Inv t' st ∧ measure t' st ≤ measure t st

namespace Reads

open Overlapped

variable {ops : TrieValue ρ σ} {body : HandleTrie ρ → α → Except Fault (α ⊕ β)}
  {Inv : HandleTrie ρ → α → Prop} {measure : HandleTrie ρ → α → Nat}
  {Post : HandleTrie ρ → β → Prop}

/-- What holds of a run so far: the invariant, or what the reader returned. -/
def After (Inv : HandleTrie ρ → α → Prop) (measure : HandleTrie ρ → α → Nat)
    (Post : HandleTrie ρ → β → Prop) (bound count : Nat) (t : HandleTrie ρ) : α ⊕ β → Prop
  | .inl st => Inv t st ∧ count + measure t st ≤ bound
  | .inr o => Post t o ∧ count ≤ bound + 1

section After

variable {bound bound' count : Nat} {r : α ⊕ β}

theorem After.mono (h : After Inv measure Post bound count t r) (hle : bound ≤ bound') :
    After Inv measure Post bound' count t r := by
  cases r with
  | inl st => exact ⟨h.1, h.2.trans hle⟩
  | inr o => exact ⟨h.1, h.2.trans (Nat.succ_le_succ hle)⟩

/-- One more visit, before which the bound was larger. -/
theorem After.visit (h : After Inv measure Post bound count t r) (hlt : bound < bound') :
    After Inv measure Post bound' (count + 1) t r := by
  cases r with
  | inl st =>
    refine ⟨h.1, ?_⟩
    have hcount := h.2
    omega
  | inr o => exact ⟨h.1, Nat.succ_le_succ (h.2.trans hlt)⟩

theorem After.count_le (h : After Inv measure Post bound count t r) : count ≤ bound + 1 := by
  cases r with
  | inl st => exact (Nat.le_add_right _ _).trans (h.2.trans (Nat.le_succ bound))
  | inr o => exact h.2

end After

variable (h : Reads body Inv measure Post)
include h

/-- Neither an insertion of a handle nor the next visit can fail. -/
theorem possible {s : Overlapped ρ σ α β} {st : α} (hr : s.reader = .inl st) (wf : s.trie.Wf)
    (hinv : Inv s.trie st) {a : Action ρ} (ha : a.Valid s.trie.keySize) :
    ∃ s', s.step ops body a = some s' := by
  cases a with
  | insert key value =>
    obtain ⟨⟨v, trie, store⟩, hi, -⟩ := insert_total ops wf ha value s.store
    exact ⟨_, step_insert hr hi⟩
  | visit =>
    have hp := h.visit s.trie st wf hinv
    cases hb : body s.trie st with
    | error e => rw [hb] at hp; exact hp.elim
    | ok reader => exact ⟨_, step_visit hr hb⟩

/-- **The rule for readers.** -/
theorem run : ∀ (as : List (Action ρ)) (s s' : Overlapped ρ σ α β) (st : α),
    s.reader = .inl st → s.trie.Wf → Inv s.trie st → (∀ a ∈ as, a.Valid s.trie.keySize) →
    Infra.run (step ops body) s as = some s' → s'.trie.Wf ∧ Extends s.trie s'.trie ∧
      After Inv measure Post (measure s.trie st) (visits as) s'.trie s'.reader := by
  intro as
  induction as with
  | nil =>
    intro s s' st hr wf hinv _ hrun
    rw [← Option.some.inj hrun, hr]
    exact ⟨wf, Extends.refl _, hinv, by simp [visits]⟩
  | cons a as ih =>
    intro s s' st hr wf hinv hvalid hrun
    have hrest := fun b hb => hvalid b (List.mem_cons_of_mem a hb)
    cases a with
    | insert key value =>
      have hkey : ValidKey s.trie.keySize key := hvalid _ List.mem_cons_self
      obtain ⟨⟨v, trie, store⟩, hi, hins, hev⟩ := insert_total ops wf hkey value s.store
      obtain ⟨hinv', hle⟩ := h.extend s.trie trie st wf hins.wf hev.toExtends hinv
      rw [run_of_step (step_insert hr hi)] at hrun
      obtain ⟨wf', hext, hafter⟩ := ih { s with trie := trie, store := store } s' st hr hins.wf
        hinv' (fun b hb => hins.keySize.symm ▸ hrest b hb) hrun
      -- the insertion did not make the measure larger
      exact ⟨wf', hev.toExtends.trans hext, hafter.mono hle⟩
    | visit =>
      have hp := h.visit s.trie st wf hinv
      cases hb : body s.trie st with
      | error e => rw [hb] at hp; exact hp.elim
      | ok reader =>
        rw [run_of_step (step_visit hr hb)] at hrun
        rw [hb] at hp
        cases reader with
        | inl st₁ =>
          obtain ⟨hinv', hlt⟩ := hp
          obtain ⟨wf', hext, hafter⟩ := ih { s with reader := .inl st₁ } s' st₁ rfl wf hinv'
            hrest hrun
          exact ⟨wf', hext, hafter.visit hlt⟩
        | inr o =>
          obtain ⟨rfl, rfl⟩ := run_returned (s := { s with reader := .inr o }) rfl hrun
          exact ⟨wf, Extends.refl _, hp, Nat.le_add_left 1 _⟩

end Reads

/-- A key that nobody inserts is bound at the end only if it was at the start. -/
theorem binds_of_run {ops : TrieValue ρ σ} {body : HandleTrie ρ → α → Except Fault (α ⊕ β)}
    {k : Key} {v : ρ} : ∀ (as : List (Action ρ)) (s s' : Overlapped ρ σ α β), s.trie.Wf →
    (∀ a ∈ as, a.Valid s.trie.keySize) → run (Overlapped.step ops body) s as = some s' →
    s'.trie.Binds k v → s.trie.Binds k v ∨ ∃ w, .insert k w ∈ as := by
  intro as
  induction as with
  | nil =>
    intro s s' _ _ hrun hb
    rw [← Option.some.inj hrun] at hb
    exact Or.inl hb
  | cons a as ih =>
    intro s s' wf hvalid hrun hb
    have hrest := fun b hb => hvalid b (List.mem_cons_of_mem a hb)
    obtain ⟨s₁, h₁, hrun⟩ := run_cons hrun
    cases hr : s.reader with
    | inr o =>
      rw [Overlapped.step_returned hr] at h₁
      exact absurd h₁ (by simp)
    | inl st =>
      cases a with
      | insert key value =>
        have hkey : ValidKey s.trie.keySize key := hvalid _ List.mem_cons_self
        obtain ⟨⟨w, trie, store⟩, hi, hins, hev⟩ := insert_total ops wf hkey value s.store
        rw [Overlapped.step_insert hr hi] at h₁
        obtain rfl := Option.some.inj h₁
        -- an insertion of another key leaves this one alone
        by_cases hk : k = key
        · exact Or.inr ⟨value, hk ▸ List.mem_cons_self⟩
        · refine (ih _ s' hins.wf (fun b hb => ?_) hrun hb).imp (hev.old k v hk) ?_
          · exact hins.keySize.symm ▸ hrest b hb
          · exact fun ⟨w, hw⟩ => ⟨w, List.mem_cons_of_mem _ hw⟩
      | visit =>
        cases hread : body s.trie st with
        | error e =>
          rw [Overlapped.step, hr] at h₁
          simp only [hread] at h₁
          cases h₁
        | ok reader =>
          rw [Overlapped.step_visit hr hread] at h₁
          obtain rfl := Option.some.inj h₁
          exact (ih { s with reader := reader } s' wf hrest hrun hb).imp_right
            fun ⟨w, hw⟩ => ⟨w, List.mem_cons_of_mem _ hw⟩

/-! ## lookup -/

section Lookup

variable {t t' : HandleTrie ρ} {k : Key} {found : Option ρ} {p : List Slot} {a : Nat}

/--
The invariant of a `lookup` that overlaps insertions. `found` is what the key was bound to
when it began.

An internal node is where the symbols read so far lead. A leaf may have been pushed further
down, but it keeps its key, and the slots of what has been read are right for that key.
-/
structure Seeking (found : Option ρ) (k : Key) (t : HandleTrie ρ) (st : LookupState) : Prop where
  bound : ∀ v, found = some v → t.Binds k v
  cursor : st.keyCursor.toNat ≤ t.keySize
  missing : st.treeCursor = none → found = none
  inner : ∀ a, st.treeCursor = some a → ¬ 0 < (t.node a).suffixStart →
    t.nodeAt ((code k).take st.keyCursor.toNat) = some a
  leaf : ∀ a, st.treeCursor = some a → 0 < (t.node a).suffixStart → (∃ p, t.nodeAt p = some a) ∧
    (code k).take st.keyCursor.toNat = (code (t.node a).suffix).take st.keyCursor.toNat ∧
    ∀ v, found = some v → (t.node a).suffix = k

/-- What `lookup` may return: what was there, or the object of a key on the same path. -/
def Answers (found : Option ρ) (k : Key) (t : HandleTrie ρ) (o : Option ρ) : Prop :=
  (∀ v, found = some v → o = some v) ∧
    ∀ v, o = some v → ∃ k', code k' = code k ∧ t.Binds k' v

/-- On the path of a handle there is no other one. -/
theorem Answers.own {o : Option ρ} (h : Answers found k t o) (wf : t.Wf)
    (hk : ValidKey t.keySize k) : ∀ v, o = some v → t.Binds k v := by
  intro v hv
  obtain ⟨k', hcode, hb⟩ := h.2 v hv
  rwa [code_inj (wf.valid_of_binds hb).2 hk.2 hcode] at hb

theorem Seeking.start (wf : t.Wf) (hfound : ∀ v, found = some v → t.Binds k v) :
    Seeking found k t { treeCursor := some t.root, keyCursor := 0 } where
  bound := hfound
  cursor := Nat.zero_le _
  missing := nofun
  inner := fun a ha _ => by simpa using ha
  leaf := fun a ha hl => absurd (Option.some.inj ha ▸ hl) wf.root_inner

theorem Seeking.extend {st : LookupState} (h : Seeking found k t st) (e : Extends t t') :
    Seeking found k t' st where
  bound := fun v hv => e.binds (h.bound v hv)
  cursor := e.keySize.symm ▸ h.cursor
  missing := h.missing
  inner := fun a ha hin => by
    by_cases hl : 0 < (t.node a).suffixStart
    · obtain ⟨⟨p, hp⟩, -⟩ := h.leaf a ha hl
      exact absurd hl (e.inner_of_inner hp hin)
    · exact (e.inner _ a (h.inner a ha hl) hl).1
  leaf := fun a ha hl => by
    by_cases hl₀ : 0 < (t.node a).suffixStart
    · obtain ⟨⟨p, hp⟩, hcode, hfound⟩ := h.leaf a ha hl₀
      obtain ⟨r, hr, -, hs, -⟩ := e.leaf p a hp hl₀
      rw [hs]
      exact ⟨⟨_, hr⟩, hcode, hfound⟩
    · exact absurd hl (e.inner _ a (h.inner a ha hl₀) hl₀).2

/-- What has been read of a handle is right, not only its slots. -/
theorem Seeking.leaf_take {kc : UInt8} (h : Seeking found k t ⟨some a, kc⟩)
    (hk : ValidKey t.keySize k) (wf : t.Wf) (hl : 0 < (t.node a).suffixStart) :
    k.take kc.toNat = (t.node a).suffix.take kc.toNat := by
  obtain ⟨⟨p, hp⟩, hcode, -⟩ := h.leaf a rfl hl
  exact take_eq_of_code hk.2 ((wf.fits p a hp).key hl).2 hcode

/-- A leaf where the symbols of the key lead has the key, if the key was there. -/
theorem Seeking.at_leaf {st : LookupState} (h : Seeking found k t st) (wf : t.Wf)
    (ha : t.nodeAt p = some a) (hp : p <+: code k) (hl : 0 < (t.node a).suffixStart) :
    ∀ v, found = some v → (t.node a).suffix = k := by
  exact fun v hv => wf.suffix_of_binds ha hp hl (h.bound v hv)

/-- **A visit of a leaf decides**: it compares the rest of the key with that of the leaf. -/
theorem Seeking.visit_leaf (hk : k.length = t.keySize) {kc : UInt8} (wf : t.Wf)
    (h : Seeking found k t ⟨some a, kc⟩) (hl : 0 < (t.node a).suffixStart) :
    ∃ o, lookupBody t k ⟨some a, kc⟩ = .ok (.inr o) ∧ Answers found k t o ∧
      ∀ v, o = some v ↔ (t.node a).suffix.drop kc.toNat = k.drop kc.toNat ∧
        t.Binds (t.node a).suffix v := by
  obtain ⟨⟨p, hp⟩, hcode, hfound⟩ := h.leaf a rfl hl
  have hfits := wf.fits p a hp
  have hle : kc.toNat ≤ k.length := hk.symm ▸ h.cursor
  obtain ⟨v, hv⟩ := hfits.value hl
  have hb : t.Binds (t.node a).suffix v := ⟨p, a, hp, hl, rfl, hv⟩
  have hiff : ∀ w, (if k.drop kc.toNat = (t.node a).suffix.drop kc.toNat then (t.node a).value
      else none) = some w ↔ (t.node a).suffix.drop kc.toNat = k.drop kc.toNat ∧
        t.Binds (t.node a).suffix w := by
    intro w
    by_cases hrest : k.drop kc.toNat = (t.node a).suffix.drop kc.toNat
    · rw [if_pos hrest, hv]
      refine ⟨fun hw => ⟨hrest.symm, Option.some.inj hw ▸ hb⟩, fun hw => ?_⟩
      rw [wf.binds_unique hb hw.2]
    · rw [if_neg hrest]
      exact ⟨nofun, fun hw => absurd hw.1.symm hrest⟩
  refine ⟨_, lookupBody_rest hle (hk.trans (hfits.key hl).1.symm) hl, ⟨fun w hw => ?_,
    fun w hw => ?_⟩, hiff⟩
  · have hsame := hfound w hw
    exact (hiff w).mpr ⟨by rw [hsame], hsame.symm ▸ h.bound w hw⟩
  · obtain ⟨hrest, hw⟩ := (hiff w).mp hw
    have hrest' : (code (t.node a).suffix).drop kc.toNat = (code k).drop kc.toNat := by
      rw [code, code, ← List.map_drop, ← List.map_drop, hrest]
    refine ⟨_, ?_, hw⟩
    calc code (t.node a).suffix
        = (code (t.node a).suffix).take kc.toNat ++ (code (t.node a).suffix).drop kc.toNat :=
          (List.take_append_drop _ _).symm
      _ = (code k).take kc.toNat ++ (code k).drop kc.toNat := by rw [← hcode, hrest']
      _ = code k := List.take_append_drop _ _

/-- A visit of an internal node goes to the child in the slot of the next symbol. -/
theorem Seeking.visit_inner (hk : k.length = t.keySize) {kc : UInt8} (wf : t.Wf)
    (h : Seeking found k t ⟨some a, kc⟩) (hin : ¬ 0 < (t.node a).suffixStart) :
    ∃ o, lookupBody t k ⟨some a, kc⟩ = .ok (.inl ⟨o, kc + 1⟩) ∧ kc.toNat < t.keySize ∧
      Seeking found k t ⟨o, kc + 1⟩ := by
  have hat := h.inner a rfl hin
  have hle := h.cursor
  have hle' := t.keySize_le
  have hlt := (wf.fits _ _ hat).inner_depth hin
  rw [length_code_take (hk.symm ▸ hle)] at hlt
  have hik : kc.toNat < k.length := hk.symm ▸ hlt
  have hsucc : (kc + 1).toNat = kc.toNat + 1 := toNat_succ (by omega)
  have hchild : ∀ b, t.kids a (TLB k[kc.toNat]) = some b →
      t.nodeAt ((code k).take (kc + 1).toNat) = some b := fun b hb => by
    rw [hsucc, code_take_succ hik]
    exact nodeAt_kid hat hb
  refine ⟨_, lookupBody_inner hik hin, hlt, h.bound, ?_, ?_, fun b hb _ => hchild b hb,
    fun b hb hl => ?_⟩
  · show (kc + 1).toNat ≤ t.keySize
    omega
  · intro hc
    refine Option.eq_none_iff_forall_ne_some.mpr fun v hv => ?_
    exact wf.unbound_of_slot hik hat hin hc v (h.bound v hv)
  · have hb' := hchild b hb
    have hnext : (kc + 1).toNat ≤ k.length := by omega
    exact ⟨⟨_, hb'⟩, wf.leaf_code hnext hb' hl, h.at_leaf wf hb' (List.take_prefix _ _) hl⟩

/-- **`lookup` is a reader**, of any key that it accepts. -/
theorem lookup_reads {keySize : Nat} (hk : k.length = keySize) :
    Reads (fun t st => lookupBody t k st)
      (fun t st => t.keySize = keySize ∧ Seeking found k t st) lookupMeasure (Answers found k) where
  visit := by
    rintro t ⟨cursor, kc⟩ wf ⟨hsize, h⟩
    subst hsize
    cases cursor with
    | none =>
      have hnone := h.missing rfl
      exact ⟨fun v hv => absurd (hnone.symm.trans hv) (by simp), nofun⟩
    | some a =>
      by_cases hl : 0 < (t.node a).suffixStart
      · obtain ⟨o, hbody, ho, -⟩ := h.visit_leaf hk wf hl
        show Progress _ _ _ _ (lookupBody t k ⟨some a, kc⟩)
        rw [hbody]
        exact ho
      · obtain ⟨o, hbody, hlt, hnext⟩ := h.visit_inner hk wf hl
        have hle := t.keySize_le
        have hsucc : (kc + 1).toNat = kc.toNat + 1 := toNat_succ (by omega)
        show Progress _ _ _ _ (lookupBody t k ⟨some a, kc⟩)
        rw [hbody]
        refine ⟨⟨rfl, hnext⟩, ?_⟩
        cases o with
        | none =>
          show 0 < t.keySize + 1 - kc.toNat
          omega
        | some b =>
          show t.keySize + 1 - (kc + 1).toNat < t.keySize + 1 - kc.toNat
          omega
  extend := by
    rintro t t' ⟨cursor, kc⟩ _ _ e ⟨hsize, h⟩
    refine ⟨⟨e.keySize.trans hsize, h.extend e⟩, ?_⟩
    cases cursor with
    | none => exact Nat.le_refl _
    | some a =>
      show t'.keySize + 1 - kc.toNat ≤ t.keySize + 1 - kc.toNat
      rw [e.keySize]

/-- The state in which `lookup` enters its loop. -/
def startLookup (t : HandleTrie ρ) (s : σ) : Overlapped ρ σ LookupState (Option ρ) :=
  { trie := t, store := s, reader := .inl { treeCursor := some t.root, keyCursor := 0 } }

/-! ## What a lookup promises -/

/-- An answer that is right, for a trie `t` at the call and `t'` at the return. -/
structure AnswersCorrectly (t : HandleTrie ρ) (k : Key) (as : List (Action ρ)) (t' : HandleTrie ρ)
    (o : Option ρ) : Prop where
  /-- The object of the key, if it was there. -/
  present : ∀ v, t.Binds k v → o = some v
  /-- NULL, if the key has not been inserted. -/
  absent : (∀ v, ¬ t.Binds k v) → (∀ v, .insert k v ∉ as) → o = none
  /-- No object of another key. -/
  own : ∀ v, o = some v → t'.Binds k v

/-- A visit of the leaf of another key, which agrees with the key from `key_cursor` on. -/
def Mistakes (k : Key) (s : Overlapped ρ σ LookupState (Option ρ)) : Action ρ → Prop
  | .insert _ _ => False
  | .visit => ∃ a kc, s.reader = .inl ⟨some a, kc⟩ ∧ 0 < (s.trie.node a).suffixStart ∧
      (s.trie.node a).suffix ≠ k ∧ (s.trie.node a).suffix.drop kc.toNat = k.drop kc.toNat

variable {ops : TrieValue ρ σ} {s : σ} {as : List (Action ρ)}
  {s' : Overlapped ρ σ LookupState (Option ρ)} {o : Option ρ}

/-- **What holds of every run of a lookup**, whatever its key. -/
theorem lookup_run (wf : t.Wf) (hk : k.length = t.keySize) (hvalid : ∀ a ∈ as, a.Valid t.keySize)
    (hrun : run (Overlapped.step ops fun t st => lookupBody t k st) (startLookup t s) as
      = some s') :
    s'.trie.Wf ∧ s'.trie.keySize = t.keySize ∧ visits as ≤ t.keySize + 2 ∧
    (∀ st, s'.reader = .inl st → Seeking (t.find k) k s'.trie st ∧
      ∀ a : Action ρ, a.Valid t.keySize →
        ∃ s'', s'.step ops (fun t st => lookupBody t k st) a = some s'') ∧
    ∀ o, s'.reader = .inr o → Answers (t.find k) k s'.trie o := by
  have hreads : Reads (fun (t : HandleTrie ρ) st => lookupBody t k st)
      (fun t' st => t'.keySize = t.keySize ∧ Seeking (t.find k) k t' st) lookupMeasure
      (Answers (t.find k) k) := lookup_reads hk
  obtain ⟨wf', hext, hafter⟩ := hreads.run as (startLookup t s) s' _ rfl wf
    ⟨rfl, Seeking.start wf fun _ hv => wf.find_eq_some.mp hv⟩ hvalid hrun
  have hsize : s'.trie.keySize = t.keySize := hext.keySize
  refine ⟨wf', hsize, hafter.count_le, fun st hr => ?_, fun o hr => ?_⟩
  · rw [hr] at hafter
    exact ⟨hafter.1.2, fun a ha => hreads.possible hr wf' hafter.1 (hsize.symm ▸ ha)⟩
  · rw [hr] at hafter
    exact hafter.1

/-- An answer is right if it is no object of another key. -/
theorem answersCorrectly_iff (wf : t.Wf) (hk : k.length = t.keySize)
    (hvalid : ∀ a ∈ as, a.Valid t.keySize)
    (hrun : run (Overlapped.step ops fun t st => lookupBody t k st) (startLookup t s) as
      = some s') (hr : s'.reader = .inr o) :
    AnswersCorrectly t k as s'.trie o ↔ ∀ v, o = some v → s'.trie.Binds k v := by
  refine ⟨AnswersCorrectly.own, fun hown => ⟨fun v hv => ?_, fun hno hnot => ?_, hown⟩⟩
  · obtain ⟨-, -, -, -, hanswers⟩ := lookup_run wf hk hvalid hrun
    exact (hanswers o hr).1 v (wf.find_eq_some.mpr hv)
  · refine Option.eq_none_iff_forall_ne_some.mpr fun v hv => ?_
    rcases binds_of_run as (startLookup t s) s' wf hvalid hrun (hown v hv) with hb | ⟨w, hw⟩
    · exact hno v hb
    · exact hnot w hw

/-- The last step of a run that has returned is the visit that returns. -/
theorem returned_split {body : HandleTrie ρ → α → Except Fault (α ⊕ β)} {o : β} :
    ∀ {as : List (Action ρ)} {s s' : Overlapped ρ σ α β} {st : α}, s.reader = .inl st →
      run (Overlapped.step ops body) s as = some s' → s'.reader = .inr o →
      ∃ before s₁ st₁, as = before ++ [.visit] ∧ run (Overlapped.step ops body) s before = some s₁ ∧
        s₁.reader = .inl st₁ ∧ body s₁.trie st₁ = .ok (.inr o) ∧ s'.trie = s₁.trie := by
  intro as
  induction as with
  | nil =>
    intro s s' st hr hrun ho
    obtain rfl := Option.some.inj hrun
    cases hr.symm.trans ho
  | cons a as ih =>
    intro s s' st hr hrun ho
    obtain ⟨s₁, h₁, hrest⟩ := run_cons hrun
    cases hr₁ : s₁.reader with
    | inl st₁ =>
      obtain ⟨before, s₂, st₂, rfl, hbefore, hlast⟩ := ih hr₁ hrest ho
      exact ⟨a :: before, s₂, st₂, rfl, by rw [run_of_step h₁, hbefore], hlast⟩
    | inr o₁ =>
      obtain ⟨rfl, rfl⟩ := Overlapped.run_returned hr₁ hrest
      cases a with
      | insert key value =>
        rw [Overlapped.step, hr] at h₁
        split at h₁
        · obtain rfl := Option.some.inj h₁
          cases hr₁
        · cases h₁
      | visit =>
        rw [Overlapped.step, hr] at h₁
        cases hbody : body s.trie st with
        | error e => simp [hbody] at h₁
        | ok r =>
          obtain rfl : { s with reader := r } = s' := by simpa [hbody] using h₁
          obtain rfl : r = .inr o := ho
          exact ⟨[], s, st, rfl, rfl, hr, hbody, rfl⟩

/-- A mistake ends the run, so a lookup that has not returned has made none. -/
theorem not_mistakes_of_reading (wf : t.Wf) (hk : k.length = t.keySize)
    (hvalid : ∀ a ∈ as, a.Valid t.keySize)
    (hrun : run (Overlapped.step ops fun t st => lookupBody t k st) (startLookup t s) as
      = some s') {st : LookupState} (hr : s'.reader = .inl st) :
    AllSteps (Overlapped.step ops fun t st => lookupBody t k st) (fun s a => ¬ Mistakes k s a)
      (startLookup t s) as := by
  refine allSteps_iff_split.mpr fun pre a post heq s₂ hpre hmistake => ?_
  subst heq
  cases a with
  | insert => exact hmistake
  | visit =>
    obtain ⟨b, kc, hr₂, hl, -⟩ := hmistake
    have hvalid₂ := fun a ha => hvalid a (List.mem_append_left _ ha)
    obtain ⟨wf₂, hsize₂, -, hseeking₂, -⟩ := lookup_run wf hk hvalid₂ hpre
    obtain ⟨o₂, hbody₂, -⟩ := (hseeking₂ _ hr₂).1.visit_leaf (hk.trans hsize₂.symm) wf₂ hl
    rw [run_append, hpre, Option.bind_some,
      run_of_step (Overlapped.step_visit hr₂ hbody₂)] at hrun
    obtain ⟨-, rfl⟩ := Overlapped.run_returned (o := o₂) rfl hrun
    cases hr

/-- **A lookup answers correctly exactly if it makes no mistake.** -/
theorem lookup_correct_iff (wf : t.Wf) (hk : k.length = t.keySize)
    (hvalid : ∀ a ∈ as, a.Valid t.keySize)
    (hrun : run (Overlapped.step ops fun t st => lookupBody t k st) (startLookup t s) as
      = some s') (hr : s'.reader = .inr o) :
    AnswersCorrectly t k as s'.trie o ↔
      AllSteps (Overlapped.step ops fun t st => lookupBody t k st) (fun s a => ¬ Mistakes k s a)
        (startLookup t s) as := by
  obtain ⟨before, s₁, ⟨cursor, kc⟩, rfl, hbefore, hr₁, hbody, htrie⟩ :=
    returned_split (s := startLookup t s) rfl hrun hr
  have hvalid' := fun a ha => hvalid a (List.mem_append_left _ ha)
  obtain ⟨wf₁, hsize₁, -, hseeking, -⟩ := lookup_run wf hk hvalid' hbefore
  obtain ⟨h, -⟩ := hseeking _ hr₁
  have hk₁ := hk.trans hsize₁.symm
  -- only the last step can be a mistake
  have hlast : AllSteps (Overlapped.step ops fun t st => lookupBody t k st)
      (fun s a => ¬ Mistakes k s a) (startLookup t s) (before ++ [.visit]) ↔
        ¬ Mistakes k s₁ .visit := by
    rw [allSteps_append]
    refine ⟨fun hall => (hall.2 s₁ hbefore).1, fun hno =>
      ⟨not_mistakes_of_reading wf hk hvalid' hbefore hr₁, fun s₂ hs₂ => ?_⟩⟩
    obtain rfl := Option.some.inj (hbefore.symm.trans hs₂)
    exact ⟨hno, fun _ _ => trivial⟩
  rw [answersCorrectly_iff wf hk hvalid hrun hr, hlast, htrie]
  cases cursor with
  | none =>
    obtain rfl : none = o := Sum.inr.inj (Except.ok.inj hbody)
    refine iff_of_true nofun ?_
    rintro ⟨a, kc', hr', -⟩
    cases hr₁.symm.trans hr'
  | some a =>
    by_cases hl : 0 < (s₁.trie.node a).suffixStart
    · obtain ⟨o', hbody', -, hiff⟩ := h.visit_leaf hk₁ wf₁ hl
      obtain rfl : o' = o := Sum.inr.inj (Except.ok.inj (hbody'.symm.trans hbody))
      obtain ⟨⟨p, hp⟩, hcode, -⟩ := h.leaf a rfl hl
      obtain ⟨v, hv⟩ := (wf₁.fits p a hp).value hl
      have hb : s₁.trie.Binds (s₁.trie.node a).suffix v := ⟨p, a, hp, hl, rfl, hv⟩
      constructor
      · rintro hown ⟨b, kc', hr', -, hne, hrest⟩
        obtain ⟨rfl, rfl⟩ : b = a ∧ kc' = kc := by
          simpa using hr'.symm.trans hr₁
        -- the key is bound, so it is a handle, and its path leads to no other one
        have hbound := hown v ((hiff v).mpr ⟨hrest, hb⟩)
        have htake := h.leaf_take (wf₁.valid_of_binds hbound) wf₁ hl
        exact hne ((drop_eq_iff htake).mp hrest.symm)
      · intro hno w hw
        obtain ⟨hrest, hbound⟩ := (hiff w).mp hw
        by_cases hsame : (s₁.trie.node a).suffix = k
        · rwa [hsame] at hbound
        · exact absurd ⟨a, kc, hr₁, hl, hsame, hrest⟩ hno
    · obtain ⟨next, hbody', -⟩ := h.visit_inner hk₁ wf₁ hl
      cases hbody'.symm.trans hbody

/-! ## Keys that are no handles -/

/-- A loop that returns is some visits in a row. -/
theorem run_visits (ops : TrieValue ρ σ) (body : HandleTrie ρ → α → Except Fault (α ⊕ β))
    (s : σ) {out : Fault} {o : β} : ∀ {n : Nat} {st : α}, loop out (body t) n st = .ok o →
      ∃ m, run (Overlapped.step ops body) { trie := t, store := s, reader := .inl st }
        (List.replicate m .visit) = some { trie := t, store := s, reader := .inr o } := by
  intro n
  induction n with
  | zero => intro st h; cases h
  | succ n ih =>
    intro st h
    rw [loop] at h
    cases hbody : body t st with
    | error e => rw [hbody] at h; cases h
    | ok r =>
      rw [hbody] at h
      cases r with
      | inl st' =>
        obtain ⟨m, hm⟩ := ih h
        exact ⟨m + 1, by rw [List.replicate_succ, run_of_step (Overlapped.step_visit rfl hbody), hm]⟩
      | inr o' =>
        obtain rfl := Except.ok.inj h
        exact ⟨1, run_of_step (Overlapped.step_visit rfl hbody)⟩

theorem Inserted.bound {key : Key} {value : ρ} {r : ρ × HandleTrie ρ × σ}
    (h : Inserted ops t key value s r) : ∃ v, r.2.1.Binds key v := by
  rcases h.result with ⟨hold, -, hbinds⟩ | ⟨-, -, -, hbinds⟩
  · exact ⟨_, (hbinds key _).mpr hold⟩
  · exact ⟨value, (hbinds key value).mpr (.inr ⟨rfl, rfl⟩)⟩

/-- A leaf next to another one has its place at the end of its path. -/
theorem Wf.eq_code_of_sibling (wf : t.Wf) {w : Key} {b b' : UInt8} (hne : b ≠ b') {q : List Slot}
    (ha : t.nodeAt q = some a) (hl : 0 < (t.node a).suffixStart)
    (hs : (t.node a).suffix = w ++ [b]) {v : ρ} (hb : t.Binds (w ++ [b']) v) :
    q = code (w ++ [b]) := by
  have hq : q <+: code (w ++ [b]) := hs ▸ (wf.fits q a ha).path hl
  by_contra hshort
  have hlt : q.length < (code (w ++ [b])).length :=
    lt_of_le_of_ne hq.length_le fun he => hshort (hq.eq_of_length he)
  have hcode : ∀ c, code (w ++ [c]) = code w ++ [TLB c] := fun c => by simp [code]
  rw [hcode] at hq hlt
  rw [List.length_append, List.length_singleton] at hlt
  have hqw : q <+: code w :=
    List.prefix_of_prefix_length_le hq (List.prefix_append _ _) (Nat.lt_succ_iff.mp hlt)
  have hq' : q <+: code (w ++ [b']) := by
    rw [hcode]
    exact hqw.trans (List.prefix_append _ _)
  have hsame := wf.suffix_of_binds ha hq' hl hb
  rw [hs] at hsame
  exact hne (List.cons.inj (List.append_cancel_left hsame)).1

/-- The handle whose symbols select the same slots as a key, and another one next to it. -/
theorem exists_siblings {n : Nat} (hk : k.length = n) (hn : 0 < n) :
    ∃ w b b', ValidKey n (w ++ [b]) ∧ ValidKey n (w ++ [b']) ∧ b ≠ b' ∧
      code (w ++ [b]) = code k := by
  obtain ⟨w, x, rfl⟩ : ∃ w x, k = w ++ [x] := by
    rcases List.eq_nil_or_concat k with rfl | ⟨w, x, rfl⟩
    · exact absurd (hk.symm.trans List.length_nil) hn.ne'
    · exact ⟨w, x, List.concat_eq_append⟩
  let w' : Key := w.map fun b => symbolOf (TLB b)
  have hcodew : code w' = code w := by
    simp only [w', code, List.map_map, Function.comp_def, (symbolOf_spec _).2]
  have hkey : ∀ c, ValidKey n (w' ++ [symbolOf c]) := by
    intro c
    refine ⟨by rw [← hk]; simp [w'], fun b hb => ?_⟩
    rcases List.mem_append.mp hb with hb | hb
    · obtain ⟨b', -, rfl⟩ := List.mem_map.mp hb
      exact (symbolOf_spec _).1
    · exact List.mem_singleton.mp hb ▸ (symbolOf_spec c).1
  have hne : ∀ c : Slot, symbolOf c ≠ symbolOf (c + 1) := by decide
  refine ⟨w', symbolOf (TLB x), symbolOf (TLB x + 1), hkey _, hkey _, hne _, ?_⟩
  have happend : ∀ (w : Key) (b : UInt8), code (w ++ [b]) = code w ++ [TLB b] := fun w b => by
    simp [code]
  rw [happend, happend, hcodew, (symbolOf_spec _).2]

/--
**A key that is no handle can be mistaken**, whatever the trie.

Two handles are inserted, the one whose symbols select the same slots and its neighbor. They push
the leaf of the first one so far down that nothing is left to compare when the lookup comes to it.
-/
theorem exists_mistaken (ops : TrieValue ρ σ) (wf : t.Wf) (hk : k.length = t.keySize) (s : σ)
    (value : ρ) :
    ∃ as v, ∃ s' : Overlapped ρ σ LookupState (Option ρ), (∀ a ∈ as, a.Valid t.keySize) ∧
      run (Overlapped.step ops fun t st => lookupBody t k st) (startLookup t s) as = some s' ∧
      s'.reader = .inr (some v) := by
  obtain ⟨w, b, b', hkey, hkey', hne, hcode⟩ := exists_siblings hk t.keySize_pos
  obtain ⟨⟨r₁, t₁, s₁⟩, hrun₁, hins₁, hev₁⟩ := insert_total ops wf hkey value s
  have hsize₁ : t₁.keySize = t.keySize := hins₁.keySize
  obtain ⟨⟨r₂, t₂, s₂⟩, hrun₂, hins₂, hev₂⟩ :=
    insert_total ops hins₁.wf (hsize₁.symm ▸ hkey') value s₁
  have hsize₂ : t₂.keySize = t.keySize := hins₂.keySize.trans hsize₁
  obtain ⟨v₁, hb₁⟩ := hins₁.bound
  obtain ⟨v₂, hb₂⟩ := hins₂.bound
  obtain ⟨q, a, ha, hl, hs, hv⟩ := hev₂.toExtends.binds hb₁
  have hq : q = code k := by rw [hins₂.wf.eq_code_of_sibling hne ha hl hs hb₂, hcode]
  have hyields : t₂.Yields k v₁ := by
    refine ⟨q, a, by rw [hq], ha, hl, ?_, hv⟩
    have hlen : q.length = t.keySize := by rw [hq, code_length, hk]
    rw [hs, List.drop_of_length_le (by rw [hlen, hk]),
      List.drop_of_length_le (by rw [hlen, hkey.1])]
  obtain ⟨o, ho, hiff⟩ := lookup_yields hins₂.wf.loose (hk.trans hsize₂.symm)
  obtain rfl := (hiff v₁).mpr hyields
  have hloop : loop .diverges (lookupBody t₂ k) (t₂.heap.next + loopBound)
      { treeCursor := some t.root, keyCursor := 0 } = .ok (some v₁) := by
    unfold lookup checkSize at ho
    rw [if_neg (not_not.mpr (hk.trans hsize₂.symm))] at ho
    rwa [← hev₁.root, ← hev₂.root]
  obtain ⟨m, hm⟩ := run_visits ops (fun t st => lookupBody t k st) s₂ hloop
  refine ⟨.insert (w ++ [b]) value :: .insert (w ++ [b']) value :: List.replicate m .visit, v₁,
    { trie := t₂, store := s₂, reader := .inr (some v₁) }, fun act hact => ?_, ?_, rfl⟩
  · rcases List.mem_cons.mp hact with rfl | hact
    · exact hkey
    rcases List.mem_cons.mp hact with rfl | hact
    · exact hkey'
    · rw [List.eq_of_mem_replicate hact]
      trivial
  · rw [run_of_step (Overlapped.step_insert rfl hrun₁),
      run_of_step (Overlapped.step_insert rfl hrun₂)]
    exact hm

/--
**When a `lookup` that overlaps insertions answers correctly.**

The key is any that `lookup` accepts. Every run comes to its end: there are at most `keySize + 2`
visits, and none of them fails. A run that has returned has answered correctly exactly if no visit
mistook the leaf of another key for that of the key. All runs answer correctly exactly if the key
is a handle.
-/
theorem lookup_overlapped_iff (ops : TrieValue ρ σ) {t : HandleTrie ρ} (ht : t.Reachable ops)
    {k : Key} (hk : k.length = t.keySize) (s : σ) (value : ρ) :
    (∀ (as : List (Action ρ)) (s' : Overlapped ρ σ LookupState (Option ρ)),
      (∀ a ∈ as, a.Valid t.keySize) →
      run (Overlapped.step ops fun t st => lookupBody t k st) (startLookup t s) as = some s' →
      visits as ≤ t.keySize + 2 ∧
      (∀ st, s'.reader = .inl st → ∀ a : Action ρ, a.Valid t.keySize →
        ∃ s'', s'.step ops (fun t st => lookupBody t k st) a = some s'') ∧
      ∀ o, s'.reader = .inr o → (AnswersCorrectly t k as s'.trie o ↔
        AllSteps (Overlapped.step ops fun t st => lookupBody t k st) (fun s a => ¬ Mistakes k s a)
          (startLookup t s) as)) ∧
    ((∀ (as : List (Action ρ)) (s' : Overlapped ρ σ LookupState (Option ρ)),
      (∀ a ∈ as, a.Valid t.keySize) →
      run (Overlapped.step ops fun t st => lookupBody t k st) (startLookup t s) as = some s' →
      ∀ o, s'.reader = .inr o → AnswersCorrectly t k as s'.trie o) ↔ ValidKey t.keySize k) := by
  have wf := ht.wf
  refine ⟨fun as s' hvalid hrun => ?_, fun hall => ?_, fun hkey as s' hvalid hrun o hr => ?_⟩
  · obtain ⟨-, -, hvisits, hpossible, -⟩ := lookup_run wf hk hvalid hrun
    exact ⟨hvisits, fun st hr => (hpossible st hr).2, fun o hr =>
      lookup_correct_iff wf hk hvalid hrun hr⟩
  · obtain ⟨as, v, s', hvalid, hrun, hr⟩ := exists_mistaken ops wf hk s value
    obtain ⟨wf', hsize, -⟩ := lookup_run wf hk hvalid hrun
    have hbound := (hall as s' hvalid hrun _ hr).own v rfl
    exact hsize ▸ wf'.valid_of_binds hbound
  · obtain ⟨wf', hsize, -, -, hanswers⟩ := lookup_run wf hk hvalid hrun
    exact (answersCorrectly_iff wf hk hvalid hrun hr).mpr
      ((hanswers o hr).own wf' (hsize.symm ▸ hkey))

/-- `"00"` is looked up while the insertion of `"01"` pushes its leaf down. -/
theorem lookup_overlapped_iff_split :
    ∃ (t : HandleTrie Nat) (s' : Overlapped Nat (Nat → Nat) LookupState (Option Nat)),
      t.Reachable counterValue ∧
      run (Overlapped.step counterValue fun t st => lookupBody t [48, 48] st)
        (startLookup t fun _ => 1) [.visit, .insert [48, 49] 1, .visit] = some s' ∧
      s'.reader = .inr (some 0) ∧
      AnswersCorrectly t [48, 48] [.visit, .insert [48, 49] 1, .visit] s'.trie (some 0) := by
  obtain ⟨t, ht, hsize, s', hrun, hr⟩ : ∃ t : HandleTrie Nat, t.Reachable counterValue ∧
      t.keySize = 2 ∧ ∃ s', run (Overlapped.step counterValue fun t st => lookupBody t [48, 48] st)
        (startLookup t fun _ => 1) [.visit, .insert [48, 49] 1, .visit] = some s' ∧
      s'.reader = .inr (some 0) :=
    ⟨_, ⟨2, by decide, by decide, [.insert [48, 48] 0], fun _ => 1, _, _, by decide +kernel, rfl⟩,
      rfl, _, rfl, rfl⟩
  have hcorrect := (lookup_overlapped_iff counterValue ht (k := [48, 48]) (by rw [hsize]; rfl)
    (fun _ => 1) 0).2.mpr (by rw [hsize]; decide +kernel)
  exact ⟨t, s', ht, hrun, hr, hcorrect _ s' (by rw [hsize]; decide +kernel) hrun _ hr⟩

/-- `"a"` is there, and a lookup of `"A"` returns its object. -/
theorem lookup_overlapped_mistakes :
    ∃ (t : HandleTrie Nat) (s' : Overlapped Nat (Nat → Nat) LookupState (Option Nat)),
      t.Reachable counterValue ∧ t.keySize = 1 ∧
      run (Overlapped.step counterValue fun t st => lookupBody t [65] st)
        (startLookup t fun _ => 1) [.visit, .visit] = some s' ∧
      s'.reader = .inr (some 0) ∧ t.Binds [97] 0 ∧ (∀ v, ¬ t.Binds [65] v) ∧
      ¬ AnswersCorrectly t [65] [.visit, .visit] s'.trie (some 0) := by
  obtain ⟨t, ht, hsize, hfind, s', hrun, hr⟩ : ∃ t : HandleTrie Nat, t.Reachable counterValue ∧
      t.keySize = 1 ∧ t.find [97] = some 0 ∧
      ∃ s', run (Overlapped.step counterValue fun t st => lookupBody t [65] st)
        (startLookup t fun _ => 1) [.visit, .visit] = some s' ∧ s'.reader = .inr (some 0) :=
    ⟨_, ⟨1, by decide, by decide, [.insert [97] 0], fun _ => 1, _, _, by decide +kernel, rfl⟩,
      rfl, rfl, _, rfl, rfl⟩
  have hunbound : ∀ v, ¬ t.Binds [65] v := fun v hb =>
    absurd ((ht.wf.valid_of_binds hb).2 65 (List.mem_singleton_self _)) (by decide)
  refine ⟨t, s', ht, hsize, hrun, hr, ht.wf.find_eq_some.mp hfind, hunbound, fun hcorrect => ?_⟩
  have habsent := hcorrect.absent hunbound (by simp)
  cases habsent

end Lookup

end AttentionBroker.HandleTrie
