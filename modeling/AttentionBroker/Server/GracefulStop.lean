import AttentionBroker.Server.WorkerThreads

/-!
# What `graceful_stop` leaves in the queues

`graceful_stop` sets `stop_flag` and joins the workers. From the moment at which the flag is set a
worker that falls asleep exits when it wakes up, so all workers exit, and whether the requests of a
queue are processed was decided at that moment: they are if some worker for them was awake.
-/

namespace AttentionBroker

open Infra

variable {ρ : Type}

namespace Worker

/-- The worker is about to take a request, or processes one. -/
def Awake (w : Worker ρ) : Prop := w.state ≠ .sleeping ∧ w.state ≠ .exited

/-- The turns of a worker that finds no more requests until it exits. -/
def turnsLeft (w : Worker ρ) : Nat :=
  match w.state with
  | .processing _ _ => 3
  | .selecting => 2
  | .sleeping => 1
  | .exited => 0

end Worker

namespace ThreadPool

open WorkerThreads

/-- Some worker for these requests is awake. -/
def Attended (s : ThreadPool ρ) (T : RequestType) : Prop := ∃ w ∈ s.locals, w.type = T ∧ w.Awake

/-- The turns of all workers until they exit. A request costs two. -/
def turnsLeft (s : ThreadPool ρ) : Nat :=
  2 * s.shared.queued.card + (s.locals.map Worker.turnsLeft).sum

/-- A thread that `join` no longer waits for. -/
def HasExited (s : ThreadPool ρ) (i : Nat) : Prop := ∀ w ∈ s.locals[i]?, w.state = .exited

/-- What every state after `stop_flag` is set satisfies. -/
structure Stopping (s : ThreadPool ρ) : Prop extends Accounted s where
  flag : s.shared.stopFlag = true

variable {s s' : ThreadPool ρ} {i j : Nat} {w : Worker ρ} {ws : WorkerThreads ρ}
  {state : WorkerState ρ} {T : RequestType}

/-! ## One turn -/

/-- **A turn of a worker that has not exited is one turn less.** -/
theorem moves_turnsLeft (hm : w.Moves s.shared ws state) (hflag : s.shared.stopFlag = true)
    (hw : w.state ≠ .exited) :
    2 * ws.queued.card + ({ w with state := state } : Worker ρ).turnsLeft + 1
      = 2 * s.shared.queued.card + w.turnsLeft := by
  cases hm with
  | take hs hl hq =>
    rw [queued_pop hl hq, Multiset.card_add, Multiset.card_singleton]
    simp only [Worker.turnsLeft, hs]
    omega
  | sleep hs | exit hs => simp [Worker.turnsLeft, hs, Nat.add_assoc]
  | process hs =>
    have hqueued : ∀ l, { s.shared with processed := l }.queued = s.shared.queued := fun _ => rfl
    simp [Worker.turnsLeft, hs, hqueued, Nat.add_assoc]
  | wake hs hs' => simp [hflag] at hs'
  | stay hs => exact absurd hs hw

/-- A worker of another type, or one that is not awake, leaves the queue alone. -/
theorem moves_elsewhere (hw : s.locals[i]? = some w) (hm : w.Moves s.shared ws state)
    (hflag : s.shared.stopFlag = true) (hT : ¬ (w.type = T ∧ w.Awake)) :
    (Attended { shared := ws, locals := s.locals.set i { w with state := state } } T
      ↔ Attended s T) ∧ (ws.queue T).toList = (s.shared.queue T).toList := by
  have hawake : Worker.Awake { w with state := state } → w.Awake := by
    intro h
    cases hm with
    | take hs | sleep hs | process hs => simp [Worker.Awake, hs]
    | wake hs hs' => simp [hflag] at hs'
    | exit | stay => exact absurd rfl h.2
  constructor
  · rw [Attended, Attended, Parties.exists_set hw, Parties.exists_locals hw, or_iff_right hT,
      or_iff_right fun h => hT ⟨h.1, hawake h.2⟩]
  · cases hm with
    | take hs =>
      have hne : T ≠ w.type := by
        rintro rfl
        exact hT ⟨rfl, by simp [Worker.Awake, hs]⟩
      rw [queue_setQueue_ne hne]
    | process => cases T <;> rfl
    | sleep | wake | exit | stay => rfl

/-- A worker stays awake until it has found its queue empty. -/
theorem moves_attended (hw : s.locals[i]? = some w) (hm : w.Moves s.shared ws state)
    (hT : w.type = T) (hawake : w.Awake) :
    Attended { shared := ws, locals := s.locals.set i { w with state := state } } T ∨
      (ws.queue T).toList = [] := by
  subst hT
  have hstill : Worker.Awake { w with state := state } →
      Attended { shared := ws, locals := s.locals.set i { w with state := state } } w.type :=
    fun h => (Parties.exists_set hw _).mpr (.inl ⟨rfl, h⟩)
  cases hm with
  | take hs | process hs => exact .inl (hstill (by simp [Worker.Awake]))
  | sleep hs hl => exact .inr hl
  | wake hs | exit hs => exact absurd hs hawake.1
  | stay hs => exact absurd hs hawake.2

namespace Stopping

/-- **What a turn does once the flag is set.** -/
theorem step_cases (h : Stopping s) (hstep : Parties.step Worker.advance s i = some s') :
    (s.locals[i]? = none ∧ s' = s) ∨ ∃ w ws state, s.locals[i]? = some w ∧
      w.Moves s.shared ws state ∧
      s' = { shared := ws, locals := s.locals.set i { w with state := state } } ∧ Stopping s' := by
  obtain ⟨hnone, rfl⟩ | ⟨w, ws, w', hw, hadv, rfl⟩ := Parties.step_cases hstep
  · exact .inl ⟨hnone, rfl⟩
  · obtain ⟨ws', state, hadv', hm⟩ := Worker.advance_moves h.wf w
    obtain ⟨rfl, rfl⟩ := Prod.mk.inj (Except.ok.inj (hadv.symm.trans hadv'))
    refine .inr ⟨w, ws, state, hw, hm, rfl, ⟨h.toAccounted.move hw hm, ?_⟩⟩
    exact (moves_ledger hm).2.1.trans h.flag

theorem step (h : Stopping s) (hstep : Parties.step Worker.advance s i = some s') :
    Stopping s' ∧ s'.shared.enqueued = s.shared.enqueued := by
  obtain ⟨-, rfl⟩ | ⟨w, ws, state, hw, hm, rfl, h'⟩ := h.step_cases hstep
  · exact ⟨h, rfl⟩
  · exact ⟨h', (moves_ledger hm).1⟩

/-- A turn brings a worker closer to its exit, unless it has exited. -/
theorem step_turnsLeft (h : Stopping s) (hstep : Parties.step Worker.advance s i = some s') :
    (s.HasExited j → s'.HasExited j) ∧ s'.turnsLeft ≤ s.turnsLeft ∧
      (¬ s.HasExited i → s'.turnsLeft < s.turnsLeft) := by
  obtain ⟨hnone, rfl⟩ | ⟨w, ws, state, hw, hm, rfl, -⟩ := h.step_cases hstep
  · refine ⟨id, Nat.le_refl _, fun hi => absurd (fun w hw => ?_) hi⟩
    rw [hnone] at hw
    cases hw
  by_cases hexited : w.state = .exited
  · cases hm with
    | stay hs =>
      have hsame : s.locals.set i { w with state := .exited } = s.locals := by
        obtain ⟨hi, hget⟩ := List.getElem?_eq_some_iff.mp hw
        rw [← hs, ← hget]
        exact List.set_getElem_self hi
      refine ⟨fun hj => ?_, ?_, fun hi => absurd (fun x hx => ?_) hi⟩
      · rwa [hsame]
      · rw [hsame]
      · obtain rfl : w = x := Option.some.inj (hw.symm.trans hx)
        exact hs
    | take hs | sleep hs | process hs | wake hs | exit hs => simp [hexited] at hs
  · have hbefore := Parties.sum_locals Worker.turnsLeft hw
    have hafter := Parties.sum_set_others Worker.turnsLeft hw { w with state := state }
    have hturn := moves_turnsLeft hm h.flag hexited
    have hlt : turnsLeft { shared := ws, locals := s.locals.set i { w with state := state } }
        < s.turnsLeft := by
      rw [turnsLeft, turnsLeft]
      show 2 * ws.queued.card + ((s.locals.set i _).map Worker.turnsLeft).sum < _
      omega
    refine ⟨fun hj x hx => ?_, hlt.le, fun _ => hlt⟩
    have hij : i ≠ j := by
      rintro rfl
      exact hexited (hj w hw)
    exact hj x ((Parties.get_set_ne hij _).symm.trans hx)

/-- A queue with a worker that is awake has one, or is empty, after a turn. -/
theorem step_attended (h : Stopping s) (hstep : Parties.step Worker.advance s i = some s')
    (ha : s.Attended T ∨ (s.shared.queue T).toList = []) :
    s'.Attended T ∨ (s'.shared.queue T).toList = [] := by
  obtain ⟨-, rfl⟩ | ⟨w, ws, state, hw, hm, rfl, -⟩ := h.step_cases hstep
  · exact ha
  by_cases hT : w.type = T ∧ w.Awake
  · exact moves_attended hw hm hT.1 hT.2
  · obtain ⟨hiff, hqueue⟩ := moves_elsewhere hw hm h.flag hT
    rw [hiff]
    show _ ∨ (ws.queue T).toList = []
    rwa [hqueue]

/-- Nobody takes a request of a queue whose workers are all asleep. -/
theorem step_unattended (h : Stopping s) (hstep : Parties.step Worker.advance s i = some s')
    (ha : ¬ s.Attended T) :
    ¬ s'.Attended T ∧ (s'.shared.queue T).toList = (s.shared.queue T).toList := by
  obtain ⟨-, rfl⟩ | ⟨w, ws, state, hw, hm, rfl, -⟩ := h.step_cases hstep
  · exact ⟨ha, rfl⟩
  have hT : ¬ (w.type = T ∧ w.Awake) := fun hT => ha ⟨w, Parties.mem_of_get hw, hT⟩
  obtain ⟨hiff, hqueue⟩ := moves_elsewhere hw hm h.flag hT
  exact ⟨hiff.not.mpr ha, hqueue⟩

/-! ## The turns after the flag is set -/

variable {schedule : List Nat}

theorem run (h : Stopping s) (hrun : Infra.run (Parties.step Worker.advance) s schedule = some s') :
    Stopping s' ∧ s'.shared.enqueued = s.shared.enqueued :=
  run_preserves (fun x => Stopping x ∧ x.shared.enqueued = s.shared.enqueued)
    (fun _ _ _ hx hstep => ⟨(hx.1.step hstep).1, (hx.1.step hstep).2.trans hx.2⟩) hrun ⟨h, rfl⟩

/-- **A worker has exited after that many turns of its own**, whatever the others do. -/
theorem hasExited (h : Stopping s)
    (hrun : Infra.run (Parties.step Worker.advance) s schedule = some s')
    (hcount : s.turnsLeft < schedule.count i) : s'.HasExited i := by
  refine (run_count_le Stopping (HasExited · i) turnsLeft (· == i) (fun s j s' hs hstep => ?_)
    schedule s s' hrun h).resolve_right fun hle => ?_
  · obtain ⟨hkeep, hle, hlt⟩ := hs.step_turnsLeft (j := i) hstep
    exact ⟨(hs.step hstep).1, hkeep, hle, fun hj => hlt ∘ (eq_of_beq hj ▸ ·)⟩
  · rw [← List.count] at hle
    omega

/-- **When all workers have exited, a queue is empty if one of them was awake**, and else as it
was. -/
theorem queue_exited (h : Stopping s)
    (hrun : Infra.run (Parties.step Worker.advance) s schedule = some s')
    (hexit : s'.AllExited) (T : RequestType) :
    (s.Attended T → (s'.shared.queue T).toList = []) ∧
      (¬ s.Attended T → (s'.shared.queue T).toList = (s.shared.queue T).toList) := by
  constructor
  · intro ha
    obtain ⟨-, hkept⟩ := run_preserves
      (fun x : ThreadPool ρ => Stopping x ∧ (x.Attended T ∨ (x.shared.queue T).toList = []))
      (fun _ _ _ hx hstep => ⟨(hx.1.step hstep).1, hx.1.step_attended hstep hx.2⟩) hrun
      ⟨h, .inl ha⟩
    refine hkept.resolve_left ?_
    rintro ⟨w, hw, -, hawake⟩
    exact hawake.2 (hexit w hw)
  · intro ha
    refine (run_preserves (fun x : ThreadPool ρ => Stopping x ∧ ¬ x.Attended T ∧
      (x.shared.queue T).toList = (s.shared.queue T).toList) (fun x _ x' hx hstep => ?_) hrun
      ⟨h, ha, rfl⟩).2.2
    obtain ⟨hnone, hqueue⟩ := hx.1.step_unattended hstep hx.2.1
    exact ⟨(hx.1.step hstep).1, hnone, hqueue.trans hx.2.2⟩

end Stopping

variable {threadIds : List Nat} {actions : List (Action ρ)}

/--
**`graceful_stop` returns**, and leaves the requests of those queues whose workers all slept.

After any calls and turns, the workers go on alone from the moment at which `stop_flag` is set. No
turn fails, and each worker has exited after a bounded number of its own turns. Then a request is
processed exactly if it was no longer in a queue at that moment or some worker for its queue was
awake, and none is processed twice.
-/
theorem stop_returns (heven : ∃ n ∈ threadIds, n % 2 = 0) (hodd : ∃ n ∈ threadIds, n % 2 = 1)
    (hrun : run step (start threadIds) actions = some s) (hflag : s.shared.stopFlag = true)
    (schedule : List Nat) :
    ∃ s' : ThreadPool ρ, run (Parties.step Worker.advance) s schedule = some s' ∧
      (∀ i, s.turnsLeft < schedule.count i → s'.HasExited i) ∧
      (s'.AllExited → (s'.shared.processed.map (·.2.serial)).Nodup ∧
        ∀ r ∈ s.shared.enqueued, r ∈ s'.shared.processed ↔
          (r.2 ∈ (s.shared.queue r.1).toList → s.Attended r.1)) := by
  have haccounted : Accounted s := run_preserves Accounted (fun _ _ _ h hs => (step_ok h hs).1) hrun
    (accounted_start heven hodd)
  have h : Stopping s := ⟨haccounted, hflag⟩
  have hany : AllSteps (Parties.step Worker.advance) (fun _ _ => True) s schedule :=
    allSteps_of_forall fun _ _ => trivial
  obtain ⟨s', hrun', -⟩ := run_total Accounted (fun s i hs _ => by
    obtain ⟨s', hturn, hs', -⟩ := hs.turn i
    exact ⟨s', Parties.step_of_turn hturn, hs'⟩) schedule s hany haccounted
  obtain ⟨h', henqueued⟩ := h.run hrun'
  refine ⟨s', hrun', fun i hi => h.hasExited hrun' hi, fun hexit => ?_⟩
  obtain ⟨hnodup, hdisjoint⟩ := h'.toAccounted.serials_disjoint
  refine ⟨hnodup, fun r hr => ?_⟩
  obtain ⟨hempty, hsame⟩ := h.queue_exited hrun' hexit r.1
  have hmem : r ∈ s'.shared.processed ∨ r.2 ∈ (s'.shared.queue r.1).toList := by
    rw [← mem_queued, ← Multiset.mem_coe, ← Multiset.mem_add,
      ← h'.toAccounted.ledger_exited hexit, henqueued]
    exact hr
  have hnot : r ∈ s'.shared.processed → r.2 ∉ (s'.shared.queue r.1).toList :=
    fun hp hq => hdisjoint r hp r (mem_queued.mpr hq) rfl
  by_cases ha : s.Attended r.1
  · rw [hempty ha] at hmem
    exact iff_of_true (hmem.resolve_right (List.not_mem_nil)) fun _ => ha
  · rw [hsame ha] at hmem hnot
    exact ⟨fun hp hq => absurd hq (hnot hp), fun himp => hmem.resolve_right fun hq => ha (himp hq)⟩

/-- A worker that takes its request after the flag is set, and one that sleeps over its own. -/
theorem stop_returns_two : ∃ s s' : ThreadPool Nat,
    run step (start [0, 1]) [.enqueue .stimulus 7, .worker 1, .enqueue .correlation 8, .stop]
      = some s ∧
    run (Parties.step Worker.advance) s (List.replicate 8 0 ++ List.replicate 8 1) = some s' ∧
    s'.AllExited ∧ ∀ r ∈ s.shared.enqueued, r ∈ s'.shared.processed ↔
      (r.2 ∈ (s.shared.queue r.1).toList → s.Attended r.1) := by
  have hvalues : (run step (start [0, 1] : ThreadPool Nat)
      [.enqueue .stimulus 7, .worker 1, .enqueue .correlation 8, .stop]).map
        (fun s => (s.shared.stopFlag, s.turnsLeft, s.locals.length)) = some (true, 7, 2) := by
    decide +kernel
  obtain ⟨s, hrun, hs⟩ := Option.map_eq_some_iff.mp hvalues
  obtain ⟨hflag, hs⟩ := Prod.mk.inj hs
  obtain ⟨hleft, hlength⟩ := Prod.mk.inj hs
  obtain ⟨s', hrun', hexited, hprocessed⟩ := stop_returns (by decide) (by decide) hrun hflag
    (List.replicate 8 0 ++ List.replicate 8 1)
  have hlength' : s'.locals.length = 2 := run_preserves
    (fun x : ThreadPool Nat => x.locals.length = 2)
    (fun _ _ _ hx hstep => (Parties.step_length hstep).trans hx) hrun' hlength
  have hcount : ∀ i < 2, 7 < (List.replicate 8 0 ++ List.replicate 8 1).count i := by decide
  have hall : s'.AllExited := by
    intro w hw
    obtain ⟨i, hi⟩ := List.mem_iff_getElem?.mp hw
    obtain ⟨hlt, -⟩ := List.getElem?_eq_some_iff.mp hi
    exact hexited i (hleft ▸ hcount i (hlength' ▸ hlt)) w hi
  exact ⟨s, s', hrun, hrun', hall, (hprocessed hall).2⟩

end ThreadPool

end AttentionBroker
