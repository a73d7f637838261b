import AttentionBroker.Trie.Linearization

/-!
# Threads on one trie all return

A thread that waits has the mutexes of nodes above the one that it waits for. So there is no cycle
of threads that wait for one another, whatever is inserted, looked up and traversed, and each step
leaves a thread with fewer steps to go.
-/

namespace AttentionBroker

open Infra

/-- A bound on the steps of a call, whatever the other threads do. -/
def TrieThread.stepBound {ρ δ : Type} (keySize : Nat) : TrieThread ρ δ → Nat
  | insert _ _ _ => 2 * keySize + 3
  | lookup _ _ => keySize + 3
  | traverse _ _ _ _ => 17 ^ (keySize + 1) + 2

namespace HandleTrie

variable {ρ σ δ : Type} {ops : TrieValue ρ σ} {t : HandleTrie ρ} {thread : TrieThread ρ δ}
  {a b : Nat}

/-! ## The order of the waits -/

/-- A thread waits for a node of the tree. -/
theorem awaits_nodeAt (hplace : thread.InPlace t) (ha : thread.awaits t = some a) :
    ∃ p, t.nodeAt p = some a := by
  cases thread with
  | insert key value stage =>
    cases stage with
    | holding | returned => cases ha
    | entered => exact ⟨[], by rw [← Option.some.inj ha, nodeAt_nil]⟩
    | descending c p kc =>
      obtain ⟨-, h⟩ := hplace
      exact ⟨_, Option.some.inj ha ▸ nodeAt_kid h.parent h.child⟩
  | lookup key stage =>
    cases stage with
    | entered | returned => cases ha
    | visiting st =>
      obtain ⟨-, h⟩ := hplace
      by_cases hl : 0 < (t.node a).suffixStart
      · exact (h.leaf a ha hl).1
      · exact ⟨_, h.inner a ha hl⟩
  | traverse keep visit data stage =>
    cases stage with
    | entered | returned => cases ha
    | visiting st => exact hplace.1 a (List.mem_of_mem_head? ha)

/-- **A thread waits for a node below those whose mutex it has.** -/
theorem held_above (wf : t.Wf) (hplace : thread.InPlace t) (hheld : a ∈ thread.held t.root)
    (hawaits : thread.awaits t = some b) : t.depth a < t.depth b := by
  cases thread with
  | insert key value stage =>
    cases stage with
    | entered => exact absurd hheld (Finset.notMem_empty a)
    | holding | returned => cases hawaits
    | descending c p kc =>
      obtain ⟨-, h⟩ := hplace
      obtain rfl := Option.some.inj hawaits
      rw [Finset.mem_singleton.mp hheld, wf.depth_eq h.parent,
        wf.depth_eq (nodeAt_kid h.parent h.child), List.length_append]
      exact Nat.lt_succ_self _
  | lookup key stage => cases stage <;> exact absurd hheld (Finset.notMem_empty a)
  | traverse keep visit data stage =>
    cases stage with
    | entered | returned => cases hawaits
    | visiting st =>
      simp only [TrieThread.held] at hheld
      split at hheld
      case isFalse => exact absurd hheld (Finset.notMem_empty a)
      case isTrue hkeep =>
        obtain ⟨p, hp⟩ := hplace.1 b (List.mem_of_mem_head? hawaits)
        rw [Finset.mem_singleton.mp hheld, wf.depth_eq (nodeAt_nil t), wf.depth_eq hp]
        refine List.length_pos_of_ne_nil fun hnil => hkeep.2 ?_
        rw [hnil, nodeAt_nil] at hp
        rw [Option.some.inj hp]
        exact List.mem_of_mem_head? hawaits

theorem not_returned_of_held (h : a ∈ thread.held t.root) : ¬ thread.Returned := by
  cases thread with
  | insert key value stage =>
    rintro ⟨v, rfl⟩
    exact Finset.notMem_empty a h
  | lookup key stage => exact absurd h (Finset.notMem_empty a)
  | traverse keep visit data stage =>
    rintro ⟨v, rfl⟩
    exact Finset.notMem_empty a h

namespace Sound

variable {s s' : TrieThreads ρ σ δ} {i : Nat}

/-- **The next turn of a thread does not fail.** -/
theorem turn (h : Sound s) (ops : TrieValue ρ σ) {th : TrieThread ρ δ}
    (hth : s.locals[i]? = some th) :
    (∃ s', s.step (TrieThread.advance ops) i = some s') ∨ th.Returned ∨
      s.turn (TrieThread.advance ops) i = .error .waits ∧
        ∃ a ∈ s.shared.locked, th.awaits s.shared.trie = some a := by
  have houtcome := h.outcome ops (Parties.mem_of_get hth)
  match hadv : th.advance ops s.shared, houtcome with
  | .ok (sh, th'), _ => exact .inl ⟨_, Parties.step_of_turn (Parties.turn_ok hth hadv)⟩
  | .error .waits, hw => exact .inr (.inr ⟨Parties.turn_error hth hadv, hw⟩)
  | .error .returned, hr => exact .inr (.inl hr)

/-- **While a call has not returned, some thread can make a step.** -/
theorem progress (h : Sound s) (ops : TrieValue ρ σ) :
    (∀ th ∈ s.locals, th.Returned) ∨
      ∃ i < s.locals.length, ∃ s', s.step (TrieThread.advance ops) i = some s' := by
  by_cases hall : ∀ th ∈ s.locals, th.Returned
  · exact .inl hall
  right
  -- from a thread that waits to the owner of the mutex, down the tree
  have hdown : ∀ (n i : Nat) (th : TrieThread ρ δ), s.locals[i]? = some th → ¬ th.Returned →
      (∀ a, th.awaits s.shared.trie = some a → s.shared.trie.keySize < n + s.shared.trie.depth a) →
      ∃ i < s.locals.length, ∃ s', s.step (TrieThread.advance ops) i = some s' := by
    intro n
    induction n with
    | zero =>
      intro i th hth hnot hdepth
      rcases h.turn ops hth with hstep | hreturned | ⟨-, a, -, hawaits⟩
      · exact ⟨i, (List.getElem?_eq_some_iff.mp hth).1, hstep⟩
      · exact absurd hreturned hnot
      · have hplace := h.place th (Parties.mem_of_get hth)
        obtain ⟨p, hp⟩ := awaits_nodeAt hplace hawaits
        have hle := h.wf.key_length hp
        have hlt := hdepth a hawaits
        rw [h.wf.depth_eq hp] at hlt
        omega
    | succ n ih =>
      intro i th hth hnot hdepth
      rcases h.turn ops hth with hstep | hreturned | ⟨-, a, ha, hawaits⟩
      · exact ⟨i, (List.getElem?_eq_some_iff.mp hth).1, hstep⟩
      · exact absurd hreturned hnot
      · obtain ⟨th', hmem, hheld⟩ := h.locks.mem_iff.mp ha
        obtain ⟨j, hj⟩ := List.mem_iff_getElem?.mp hmem
        refine ih j th' hj (not_returned_of_held hheld) fun b hb => ?_
        have hlt := held_above h.wf (h.place th' hmem) hheld hb
        have hle := hdepth a hawaits
        omega
  push Not at hall
  obtain ⟨th, hmem, hnot⟩ := hall
  obtain ⟨i, hi⟩ := List.mem_iff_getElem?.mp hmem
  exact hdown (s.shared.trie.keySize + 1) i th hi hnot fun a _ => by omega

/-- A bound on the steps of all threads that are to come. -/
noncomputable def toGo (s : TrieThreads ρ σ δ) : Nat :=
  (s.locals.map fun th => th.toGo s.shared.trie).sum

/-- **A step leaves fewer steps to go.** -/
theorem step_toGo (h : Sound s) (hstep : s.step (TrieThread.advance ops) i = some s') :
    Sound s' ∧ toGo s' ≤ toGo s ∧ (i < s.locals.length → toGo s' < toGo s) := by
  obtain ⟨hsound, ⟨hnone, rfl⟩ | ⟨th, th', hth, hlocals, ha⟩⟩ := h.step hstep
  · exact ⟨h, Nat.le_refl _, fun hi => absurd (List.getElem?_eq_none_iff.mp hnone)
      (Nat.not_le.mpr hi)⟩
  · have hlt : toGo s' < toGo s := by
      unfold toGo
      rw [hlocals, Parties.sum_set_others _ hth, Parties.sum_locals _ hth]
      refine Nat.add_lt_add_of_lt_of_le ha.fewer (List.sum_le_sum fun x hx => ?_)
      obtain ⟨-, hrest⟩ := (Parties.forall_locals hth).mp h.place
      exact ha.effect.toGo_le h.wf (hrest x hx)
    exact ⟨hsound, Nat.le_of_lt hlt, fun _ => hlt⟩

end Sound

theorem begins_toGo {th : TrieThread ρ δ} (h : th.Begins t.keySize) :
    th.toGo t = th.stepBound t.keySize := by
  cases th with
  | insert key value stage => cases stage <;> first | rfl | exact h.elim
  | lookup key stage => cases stage <;> first | rfl | exact h.elim
  | traverse keep visit data stage => cases stage <;> first | rfl | exact h.elim

/--
**Concurrent calls on a trie all return.**

Whatever the schedule, the threads make a bounded number of steps. No step fails: a thread that
cannot go on waits for a mutex that another thread has, or its call has returned. While a call has
not returned, some thread can go on, and some schedule makes all calls return.
-/
theorem threads_return (ops : TrieValue ρ σ) (ht : t.Reachable ops) (store : σ)
    {threads : List (TrieThread ρ δ)} (hbegins : ∀ th ∈ threads, th.Begins t.keySize)
    (schedule : List Nat) {s : TrieThreads ρ σ δ}
    (hrun : run (Parties.step (TrieThread.advance ops)) (startThreads t store threads) schedule
      = some s) :
    schedule.countP (· < threads.length) ≤ (threads.map (TrieThread.stepBound t.keySize)).sum ∧
    (∀ i th e, s.locals[i]? = some th → s.turn (TrieThread.advance ops) i = .error e →
      e = .waits ∨ e = .returned ∧ th.Returned) ∧
    ((∀ th ∈ s.locals, th.Returned) ∨
      ∃ i < threads.length, ∃ s', s.step (TrieThread.advance ops) i = some s') ∧
    ∃ rest s', run (Parties.step (TrieThread.advance ops)) s rest = some s' ∧
      ∀ th ∈ s'.locals, th.Returned := by
  have hstart : Sound (startThreads t store threads) := Sound.start ht.wf store hbegins
  obtain ⟨hsound, hcount, hprogress, hend⟩ := Parties.run_ends Sound
    (fun s => ∀ th ∈ s.locals, th.Returned) Sound.toGo
    (fun s i s' hs hstep => hs.step_toGo hstep) (fun s hs => hs.progress ops) hrun hstart
  refine ⟨?_, fun i th e hth herror => ?_, hprogress, hend⟩
  · have hbound : Sound.toGo (startThreads t store threads)
        = (threads.map (TrieThread.stepBound t.keySize)).sum :=
      congrArg List.sum (List.map_congr_left fun th hth => begins_toGo (hbegins th hth))
    exact hbound ▸ hcount
  · have houtcome := hsound.outcome ops (Parties.mem_of_get hth)
    cases hadv : th.advance ops s.shared with
    | ok r =>
      rw [Parties.turn_ok hth hadv] at herror
      cases herror
    | error e' =>
      rw [Parties.turn_error hth hadv] at herror
      obtain rfl := Except.error.inj herror
      rw [hadv] at houtcome
      cases e' with
      | waits => exact .inl rfl
      | returned => exact .inr ⟨rfl, houtcome⟩
      | fault => exact houtcome.elim

/-- Inserts `"00"` and `"01"` and counts the leaves with the root locked. -/
def countingThreads : List (TrieThread Nat Nat) :=
  [.insert [48, 48] 0 .entered, .insert [48, 49] 1 .entered,
    .traverse true (fun _ n => (false, n + 1)) 0 .entered]

/-- The second insertion waits for the traversal. -/
theorem threads_return_waiting :
    ∃ (t : HandleTrie Nat) (s : TrieThreads Nat (Nat → Nat) Nat), t.Reachable counterValue ∧
      run (Parties.step (TrieThread.advance counterValue))
        (startThreads t (fun _ => 1) countingThreads) [0, 0, 2, 2] = some s ∧
      s.turn (TrieThread.advance counterValue) 1 = .error .waits ∧
      [0, 0, 2, 2].countP (· < countingThreads.length)
        ≤ (countingThreads.map (TrieThread.stepBound t.keySize)).sum ∧
      (∀ i th e, s.locals[i]? = some th → s.turn (TrieThread.advance counterValue) i = .error e →
        e = .waits ∨ e = .returned ∧ th.Returned) ∧
      ((∀ th ∈ s.locals, th.Returned) ∨ ∃ i < countingThreads.length, ∃ s',
        s.step (TrieThread.advance counterValue) i = some s') ∧
      ∃ rest s', run (Parties.step (TrieThread.advance counterValue)) s rest = some s' ∧
        ∀ th ∈ s'.locals, th.Returned := by
  obtain ⟨t, ht, hsize, s, hrun, hwaits⟩ : ∃ t : HandleTrie Nat, t.Reachable counterValue ∧
      t.keySize = 2 ∧ ∃ s, run (Parties.step (TrieThread.advance counterValue))
        (startThreads t (fun _ => 1) countingThreads) [0, 0, 2, 2] = some s ∧
      s.turn (TrieThread.advance counterValue) 1 = .error .waits :=
    ⟨new 2 (by decide) (by decide),
      ⟨2, by decide, by decide, [], fun _ => 1, _, _, nofun, rfl⟩, rfl, _, rfl, rfl⟩
  have hbegins : ∀ th ∈ countingThreads, th.Begins t.keySize := by
    rw [hsize]
    simp [countingThreads, TrieThread.Begins, ValidKey, IsHex]
  exact ⟨t, s, ht, hrun, hwaits, threads_return counterValue ht _ hbegins _ hrun⟩

end HandleTrie

end AttentionBroker
