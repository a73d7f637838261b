import AttentionBroker.Trie.Progress

/-!
# A traversal among threads on one trie

`TraverseReader` puts complete insertions between the visits of a traversal. Here the other threads
are anywhere in their calls, and there may be other traversals.

With the root locked no insertion can enter the trie, so that a traversal sees the keys of that
moment, and of the keys that were being inserted those that came in time.
-/

namespace AttentionBroker.HandleTrie

open Infra

variable {ρ σ δ : Type} {ops : TrieValue ρ σ} {t t' : HandleTrie ρ} {present : Key → Prop}
  {f : TrieNode ρ → δ → δ} {keep : Bool} {i : Nat}

/-- A visit function that never returns true, with a record of the keys it was called on. -/
def record (f : TrieNode ρ → δ → δ) (n : TrieNode ρ) (data : δ × List Key) :
    Bool × (δ × List Key) :=
  (false, f n data.1, data.2 ++ [n.suffix])

/-- The invariant of a traversal in a stage, or what it has returned. -/
def Sweeps (present : Key → Prop) (t : HandleTrie ρ) :
    ReaderStage (TraverseState (δ × List Key)) (δ × List Key) → Prop
  | .entered => ∀ k, present k → ∃ v, t.Binds k v
  | .visiting st => Sweeping present t st
  | .returned data => Swept present t data

theorem Sweeping.start (hbound : ∀ k, present k → ∃ v, t.Binds k v) (data : δ) :
    Sweeping present t (⟨[t.root], (data, [])⟩ : TraverseState (δ × List Key)) where
  stack := fun a ha => ⟨[], by rw [List.mem_singleton.mp ha, nodeAt_nil]⟩
  apart := List.pairwise_singleton _ _
  nodup := List.nodup_nil
  visited := fun k hk => absurd hk List.not_mem_nil
  behind := fun k hk => absurd hk List.not_mem_nil
  bound := hbound
  covered := fun k _ => Or.inr ⟨t.root, List.mem_singleton_self _, [], nodeAt_nil t,
    List.nil_prefix⟩

/-- What is inserted meanwhile changes nothing for a traversal. -/
theorem Sweeps.extend {stage : ReaderStage (TraverseState (δ × List Key)) (δ × List Key)}
    (h : Sweeps present t stage) (wf : t.Wf) (wf' : t'.Wf) (e : Extends t t') :
    Sweeps present t' stage := by
  cases stage with
  | entered =>
    intro k hk
    obtain ⟨v, hv⟩ := h k hk
    exact ⟨v, e.binds hv⟩
  | visiting st => exact Sweeping.extend h wf wf' e
  | returned data =>
    obtain ⟨hnodup, hpresent, hbound⟩ := h
    refine ⟨hnodup, hpresent, fun k hk => ?_⟩
    obtain ⟨v, hv⟩ := hbound k hk
    exact ⟨v, e.binds hv⟩

/-- **A step of a traversal.** -/
theorem Sweeps.advance {s s' : SharedTrie ρ σ} {data : δ}
    {stage : ReaderStage (TraverseState (δ × List Key)) (δ × List Key)}
    {th' : TrieThread ρ (δ × List Key)} (h : Sweeps present s.trie stage) (wf : s.trie.Wf)
    (hadv : (TrieThread.traverse keep (record f) (data, []) stage).advance ops s
      = .ok (s', th')) :
    s'.trie = s.trie ∧ ∃ stage', th' = .traverse keep (record f) (data, []) stage' ∧
      stage' ≠ .entered ∧ Sweeps present s.trie stage' := by
  cases stage with
  | entered =>
    obtain ⟨rfl, rfl⟩ := Prod.mk.inj (Except.ok.inj hadv)
    exact ⟨rfl, _, rfl, nofun, Sweeping.start h data⟩
  | visiting st =>
    obtain ⟨⟨s₁, r⟩, hvisit, hadv⟩ := bind_eq_ok.mp hadv
    obtain ⟨rfl, rfl⟩ := Prod.mk.inj (Except.ok.inj hadv)
    obtain ⟨htrie, -, hbody⟩ := traverseBody_of_visit hvisit
    have hprogress := (traverse_reads f present).visit s.trie st wf h
    have hrecord : traverseBody s.trie (recording f) st = .ok r := hbody
    simp only [hrecord] at hprogress
    refine ⟨htrie, _, rfl, ?_, ?_⟩
    · cases r <;> nofun
    · cases r with
      | inl st' => exact hprogress.1
      | inr result => exact hprogress
  | returned result => cases hadv

/-- What holds of the traversal that is the thread `i`. -/
def Tracks (present : Key → Prop) (f : TrieNode ρ → δ → δ) (keep : Bool) (data : δ) (i : Nat)
    (s : TrieThreads ρ σ (δ × List Key)) : Prop :=
  ∃ stage, s.locals[i]? = some (.traverse keep (record f) (data, []) stage) ∧
    Sweeps present s.shared.trie stage

/-- **A step keeps track of a traversal.** -/
theorem Tracks.step {s s' : TrieThreads ρ σ (δ × List Key)} {data : δ} {j : Nat}
    (h : Tracks present f keep data i s) (hs : Sound s)
    (hstep : s.step (TrieThread.advance ops) j = some s') : Tracks present f keep data i s' := by
  obtain ⟨stage, hth, hsweeps⟩ := h
  by_cases hij : j = i
  · subst hij
    obtain ⟨hnone, -⟩ | ⟨th, sh, th', hth', hadv, rfl⟩ := Parties.step_cases hstep
    · rw [hth] at hnone
      cases hnone
    · obtain rfl := Option.some.inj (hth.symm.trans hth')
      obtain ⟨htrie, stage', rfl, -, hsweeps'⟩ := hsweeps.advance hs.wf hadv
      exact ⟨stage', Parties.get_set_self hth _, htrie.symm ▸ hsweeps'⟩
  · exact ⟨stage, (Parties.step_get_ne hstep hij).trans hth,
      hsweeps.extend hs.wf (hs.step hstep).1.wf (hs.step_extends hstep)⟩

/--
**A traversal among threads visits nothing twice and misses nothing old.**

The other threads are anywhere in their calls when it begins, and go on while it runs. When it
returns, no key was visited twice, every key that was there when it began was visited, and every key
visited is in the trie.
-/
theorem traverse_threads (ops : TrieValue ρ σ) (ht : t.Reachable ops) (store : σ)
    {threads : List (TrieThread ρ (δ × List Key))}
    (hbegins : ∀ th ∈ threads, th.Begins t.keySize) (before after : List Nat)
    {s₁ s₂ : TrieThreads ρ σ (δ × List Key)}
    (hbefore : run (Parties.step (TrieThread.advance ops)) (startThreads t store threads) before
      = some s₁)
    (hafter : run (Parties.step (TrieThread.advance ops)) s₁ after = some s₂) (f : TrieNode ρ → δ → δ)
    {data result : δ} {keys : List Key}
    (hbegin : s₁.locals[i]? = some (.traverse keep (record f) (data, []) .entered))
    (hend : s₂.locals[i]? = some (.traverse keep (record f) (data, []) (.returned (result, keys)))) :
    keys.Nodup ∧ (∀ k v, s₁.shared.trie.Binds k v → k ∈ keys) ∧
      ∀ k ∈ keys, ∃ v, s₂.shared.trie.Binds k v := by
  have hsound : Sound s₁ := run_preserves Sound (fun s j s' hs hstep => (hs.step hstep).1) hbefore
    (Sound.start ht.wf store hbegins)
  have htracks : Tracks (fun k => ∃ v, s₁.shared.trie.Binds k v) f keep data i s₁ :=
    ⟨_, hbegin, fun k hk => hk⟩
  obtain ⟨-, stage, hth, hsweeps⟩ := run_preserves
    (fun s => Sound s ∧ Tracks (fun k => ∃ v, s₁.shared.trie.Binds k v) f keep data i s)
    (fun s j s' hs hstep => ⟨(hs.1.step hstep).1, hs.2.step hs.1 hstep⟩) hafter ⟨hsound, htracks⟩
  obtain rfl : stage = _ := by simpa using Option.some.inj (hth.symm.trans hend)
  obtain ⟨hnodup, hpresent, hbound⟩ := hsweeps
  exact ⟨hnodup, fun k v hv => hpresent k ⟨v, hv⟩, hbound⟩

/-- Inserts `"00"` and `"01"` and counts the leaves. -/
def recordingThreads (keep : Bool) : List (TrieThread Nat (Nat × List Key)) :=
  [.insert [48, 48] 0 .entered, .insert [48, 49] 1 .entered,
    .traverse keep (record fun _ n => n + 1) (0, []) .entered]

theorem recordingThreads_begins {keySize : Nat} (hsize : keySize = 2) :
    ∀ th ∈ recordingThreads keep, th.Begins keySize := by
  rw [hsize]
  simp [recordingThreads, TrieThread.Begins, ValidKey, IsHex]

/-- The leaf of `"00"` is pushed down while it is on the stack. -/
theorem traverse_threads_split :
    ∃ (t : HandleTrie Nat) (s₁ s₂ : TrieThreads Nat (Nat → Nat) (Nat × List Key)),
      t.Reachable counterValue ∧
      run (Parties.step (TrieThread.advance counterValue))
        (startThreads t (fun _ => 1) (recordingThreads false)) [0, 0, 1] = some s₁ ∧
      run (Parties.step (TrieThread.advance counterValue)) s₁ [2, 1, 1, 1, 2, 2, 2, 2, 2] = some s₂ ∧
      ([[48, 48], [48, 49]] : List Key).Nodup ∧
      (∀ k v, s₁.shared.trie.Binds k v → k ∈ [[48, 48], [48, 49]]) ∧
      ∀ k ∈ [[48, 48], [48, 49]], ∃ v, s₂.shared.trie.Binds k v := by
  obtain ⟨t, ht, hsize, s₁, h₁, s₂, h₂, hbegin, hend⟩ : ∃ t : HandleTrie Nat,
      t.Reachable counterValue ∧ t.keySize = 2 ∧
      ∃ s₁, run (Parties.step (TrieThread.advance counterValue))
        (startThreads t (fun _ => 1) (recordingThreads false)) [0, 0, 1] = some s₁ ∧
      ∃ s₂, run (Parties.step (TrieThread.advance counterValue)) s₁ [2, 1, 1, 1, 2, 2, 2, 2, 2]
        = some s₂ ∧
      s₁.locals[2]? = some (.traverse false (record fun _ n => n + 1) (0, []) .entered) ∧
      s₂.locals[2]? = some (.traverse false (record fun _ n => n + 1) (0, [])
        (.returned (2, [[48, 48], [48, 49]]))) :=
    ⟨new 2 (by decide) (by decide),
      ⟨2, by decide, by decide, [], fun _ => 1, _, _, nofun, rfl⟩, rfl, _, rfl, _, rfl, rfl, rfl⟩
  exact ⟨t, s₁, s₂, ht, h₁, h₂, traverse_threads counterValue ht _ (recordingThreads_begins hsize)
    _ _ h₁ h₂ _ hbegin hend⟩

/-! ## With the root locked -/

/-- The thread is an insertion of the key that has locked the root and has not returned. -/
def Inserting (k : Key) : TrieThread ρ δ → Prop
  | .insert key _ (.holding _ _ _) | .insert key _ (.descending _ _ _) => k = key
  | _ => False

theorem eq_insert_of_call {th : TrieThread ρ δ} {k : Key} {value : ρ}
    (h : th.call = some (.insert k value)) : ∃ stage, th = .insert k value stage := by
  cases th with
  | insert key' value' stage =>
    obtain ⟨rfl, rfl⟩ := Call.insert.inj (Option.some.inj h)
    exact ⟨stage, rfl⟩
  | lookup | traverse => cases h

theorem Inserting.call {th : TrieThread ρ δ} {k : Key} (h : Inserting k th) :
    ∃ value, th.call = some (.insert k value) := by
  cases th with
  | insert key value stage =>
    cases stage with
    | entered | returned => exact h.elim
    | holding | descending =>
      obtain rfl : k = key := h
      exact ⟨value, rfl⟩
  | lookup | traverse => exact h.elim

/-- Only an insertion binds a key, its own. -/
theorem Advances.binds_of {s s' : SharedTrie ρ σ} {th th' : TrieThread ρ δ} {k : Key} {v : ρ}
    (ha : Advances ops th s s' th') (hb : s'.trie.Binds k v) :
    s.trie.Binds k v ∨ ∃ value stage, th = .insert k value stage := by
  rcases ha.updates with ⟨-, hsame⟩ | ⟨c, o, -, hcall, -, heffect⟩
  · exact .inl ((hsame.2 k v).mp hb)
  · cases c with
    | lookup key => exact .inl ((heffect.2.2.2 k v).mp hb)
    | insert key value =>
      obtain ⟨-, w, -, hins⟩ := heffect
      rcases hins.result with ⟨-, -, hbinds⟩ | ⟨-, -, -, hbinds⟩
      · exact .inl ((hbinds k v).mp hb)
      · refine ((hbinds k v).mp hb).imp_right fun ⟨hk, _⟩ => ?_
        exact ⟨value, eq_insert_of_call (hk ▸ hcall)⟩

/-- **While the root is locked, an insertion that goes on has it behind it.** -/
theorem inserting_of_advance {s s' : SharedTrie ρ σ} {key : Key} {value : ρ}
    {stage : InsertStage ρ} {th' : TrieThread ρ δ} (hroot : s.trie.root ∈ s.locked)
    (hadv : (TrieThread.insert key value stage).advance ops s = .ok (s', th')) :
    Inserting key (TrieThread.insert key value stage : TrieThread ρ δ) := by
  cases stage with
  | holding | descending => rfl
  | returned => cases hadv
  | entered =>
    obtain ⟨r, hstep, -⟩ := bind_eq_ok.mp hadv
    obtain ⟨-, -, hstep⟩ := bind_eq_ok.mp hstep
    obtain ⟨s₁, hlock, -⟩ := bind_eq_ok.mp hstep
    exact absurd hroot (SharedTrie.lock_eq_ok.mp hlock).1

/-- The traversal has the root and may meet only these keys, or it has returned and met no others. -/
def Frozen (allowed : Key → Prop) (s : TrieThreads ρ σ (δ × List Key)) :
    ReaderStage (TraverseState (δ × List Key)) (δ × List Key) → Prop
  | .entered => False
  | .visiting st => s.shared.trie.root ∉ st.nodeStack ∧
      (∀ k v, s.shared.trie.Binds k v → allowed k) ∧ ∀ th ∈ s.locals, ∀ k, Inserting k th → allowed k
  | .returned data => ∀ k ∈ data.2, allowed k

/-- What holds of the traversal that is the thread `i` once it has locked the root. -/
def Freezes (present allowed : Key → Prop) (f : TrieNode ρ → δ → δ) (data : δ) (i : Nat)
    (s : TrieThreads ρ σ (δ × List Key)) : Prop :=
  ∃ stage, s.locals[i]? = some (.traverse true (record f) (data, []) stage) ∧
    Sweeps present s.shared.trie stage ∧ Frozen allowed s stage

section Freezes

variable {allowed : Key → Prop} {data : δ} {s s' : TrieThreads ρ σ (δ × List Key)} {j : Nat}
  {stage : ReaderStage (TraverseState (δ × List Key)) (δ × List Key)}

/-- **No other insertion gets in.** -/
theorem Frozen.other (h : Frozen allowed s stage) (hs : Sound s)
    (hth : s.locals[i]? = some (.traverse true (record f) (data, []) stage))
    (hstep : s.step (TrieThread.advance ops) j = some s') :
    Frozen allowed s' stage := by
  obtain ⟨-, rfl⟩ | ⟨th, sh, th', hth', hadv, rfl⟩ := Parties.step_cases hstep
  · exact h
  · have ha := hs.advances (Parties.mem_of_get hth') hadv
    cases stage with
    | entered => exact h
    | returned data => exact h
    | visiting st =>
      obtain ⟨hstack, hbinds, hinserting⟩ := h
      obtain ⟨hself, hothers⟩ := (Parties.forall_locals hth').mp hinserting
      -- the traversal has the root, so an insertion that goes on has it behind it
      have hroot : s.shared.trie.root ∈ s.shared.locked := by
        refine hs.locks.subset (Parties.mem_of_get hth) ?_
        simp [TrieThread.held, hstack]
      have hallowed : ∀ k value stage, th = .insert k value stage → allowed k := by
        rintro k value stage rfl
        exact hself k (inserting_of_advance hroot hadv)
      refine ⟨ha.effect.root.symm ▸ hstack, fun k v hb => ?_,
        (Parties.forall_set_others hth' th').mpr ⟨fun k hk => ?_, hothers⟩⟩
      · rcases ha.binds_of hb with hb | ⟨value, stage, heq⟩
        · exact hbinds k v hb
        · exact hallowed k value stage heq
      · obtain ⟨value, hcall⟩ := hk.call
        obtain ⟨stage, heq⟩ := eq_insert_of_call (ha.call.symm.trans hcall)
        exact hallowed k value stage heq

/-- The root does not come back to the stack. -/
theorem root_not_mem_of_visit {sh sh' : SharedTrie ρ σ} {visit : TrieNode ρ → δ → Bool × δ}
    {st st' : TraverseState δ} (wf : sh.trie.Wf) (hstacked : Stacked sh.trie st.nodeStack)
    (hvisit : traverseVisit keep visit st sh = .ok (sh', .inl st')) :
    sh.trie.root ∉ st'.nodeStack := by
  obtain ⟨stack, data⟩ := st
  cases stack with
  | nil => cases hvisit
  | cons a stack =>
    have hfree : a ∉ sh.locked := by
      obtain ⟨s₁, hlock, -⟩ := bind_eq_ok.mp hvisit
      exact (SharedTrie.lock_eq_ok.mp hlock).1
    obtain ⟨s₁, r, hvisit', hvisited, -⟩ := traverseVisit_cons wf hfree
    obtain ⟨-, rfl⟩ := Prod.mk.inj (Except.ok.inj (hvisit'.symm.trans hvisit))
    exact (hvisited.stacked wf hstacked).2

/-- **A visit of the traversal** leaves the root locked, or it is the last one. -/
theorem Freezes.visit {st : TraverseState (δ × List Key)} (hs : Sound s)
    (hth : s.locals[i]? = some (.traverse true (record f) (data, []) (.visiting st)))
    (hsweeps : Sweeping present s.shared.trie st)
    (hbinds : ∀ k v, s.shared.trie.Binds k v → allowed k)
    (hinserting : ∀ th ∈ s.locals, ∀ k, Inserting k th → allowed k)
    (hstep : s.step (TrieThread.advance ops) i = some s') :
    Freezes present allowed f data i s' := by
  obtain ⟨hnone, -⟩ | ⟨th, sh, th', hth', hadv, rfl⟩ := Parties.step_cases hstep
  · rw [hth] at hnone
    cases hnone
  · obtain rfl := Option.some.inj (hth.symm.trans hth')
    obtain ⟨htrie, stage', rfl, -, hsweeps'⟩ :=
      (show Sweeps present s.shared.trie (.visiting st) from hsweeps).advance hs.wf hadv
    refine ⟨stage', Parties.get_set_self hth _, htrie.symm ▸ hsweeps', ?_⟩
    obtain ⟨⟨s₁, r⟩, hvisit, hadv⟩ := bind_eq_ok.mp hadv
    obtain ⟨rfl, hr⟩ := Prod.mk.inj (Except.ok.inj hadv)
    obtain rfl := (TrieThread.traverse.inj hr).2.2.2
    cases r with
    | inr result =>
      intro k hk
      obtain ⟨v, hv⟩ := hsweeps'.2.2 k hk
      exact hbinds k v hv
    | inl st' =>
      have hroot := root_not_mem_of_visit hs.wf (hs.place _ (Parties.mem_of_get hth)) hvisit
      refine ⟨htrie.symm ▸ hroot, fun k v hb => hbinds k v (htrie ▸ hb), ?_⟩
      exact (Parties.forall_set_others hth _).mpr
        ⟨fun k hk => hk.elim, ((Parties.forall_locals hth).mp hinserting).2⟩

/-- **The traversal keeps the root until it returns.** -/
theorem Freezes.step (h : Freezes present allowed f data i s) (hs : Sound s)
    (hstep : s.step (TrieThread.advance ops) j = some s') :
    Freezes present allowed f data i s' := by
  obtain ⟨stage, hth, hsweeps, hfrozen⟩ := h
  by_cases hij : j = i
  · subst hij
    cases stage with
    | entered => exact hfrozen.elim
    | visiting st => exact Freezes.visit hs hth hsweeps hfrozen.2.1 hfrozen.2.2 hstep
    | returned =>
      obtain ⟨hnone, -⟩ | ⟨th, sh, th', hth', hadv, -⟩ := Parties.step_cases hstep
      · rw [hth] at hnone
        cases hnone
      · obtain rfl := Option.some.inj (hth.symm.trans hth')
        cases hadv
  · exact ⟨stage, (Parties.step_get_ne hstep hij).trans hth,
      hsweeps.extend hs.wf (hs.step hstep).1.wf (hs.step_extends hstep), hfrozen.other hs hth hstep⟩

end Freezes

end AttentionBroker.HandleTrie
