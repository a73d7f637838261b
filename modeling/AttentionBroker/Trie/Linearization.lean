import AttentionBroker.Trie.Interleaving

/-!
# Threads on one trie work as if one after the other

Every interleaving of calls of `insert` and `lookup`, each as its steps between locks, does what the
calls would do one at a time on the map, in an order in which a call that had returned before
another one began comes first. Traversals may run at the same time.
-/

namespace AttentionBroker

open Infra

/-! ## Calls on the map -/

namespace MapState

variable {ρ σ : Type} {ops : TrieValue ρ σ}

theorem run_append_fst : ∀ (cs ds : List (Call ρ)) (m : MapState ρ σ),
    (m.run ops (cs ++ ds)).1 = (m.run ops cs).1 ++ ((m.run ops cs).2.run ops ds).1
  | [], _, _ => rfl
  | c :: cs, ds, m => congrArg _ (run_append_fst cs ds (m.call ops c).2)

end MapState

namespace TrieThread

variable {ρ σ δ : Type}

/-- A thread that is about to make a call on keys of this size. -/
def Begins (keySize : Nat) : TrieThread ρ δ → Prop
  | insert key _ .entered | lookup key .entered => ValidKey keySize key
  | traverse _ _ _ .entered => True
  | _ => False

/-- The call has made a step. -/
def Begun : TrieThread ρ δ → Prop
  | insert _ _ stage => stage ≠ .entered
  | lookup _ stage => stage ≠ .entered
  | traverse _ _ _ stage => stage ≠ .entered

/-- What the call has returned. -/
def result : TrieThread ρ δ → Option (Option ρ)
  | insert _ _ (.returned v) => some (some v)
  | lookup _ (.returned o) => some o
  | _ => none

theorem answer_of_result {thread : TrieThread ρ δ} {o : Option ρ} (t : HandleTrie ρ)
    (h : thread.result = some o) : thread.answer t = some o := by
  cases thread with
  | insert key value stage =>
    cases stage with
    | entered | holding | descending => cases h
    | returned => exact h
  | lookup key stage =>
    cases stage with
    | entered | visiting => cases h
    | returned => exact h
  | traverse => cases h

theorem begun_of_answer {thread : TrieThread ρ δ} {o : Option ρ} {t : HandleTrie ρ}
    (h : thread.answer t = some o) : thread.Begun := by
  cases thread with
  | insert key value stage => exact fun he => by cases he; cases h
  | lookup key stage => exact fun he => by cases he; cases h
  | traverse => cases h

end TrieThread

namespace HandleTrie

variable {ρ σ δ : Type} {ops : TrieValue ρ σ} {keySize : Nat} {m : MapState ρ σ}

theorem Refines.sameMap {s s' : SharedTrie ρ σ} (h : s.trie.Refines keySize m.map)
    (hs : SameMap s s') (wf : s'.trie.Wf) (hsize : s'.trie.keySize = s.trie.keySize) :
    s'.trie.Refines keySize m.map := by
  refine ⟨wf, hsize.trans h.keySize, fun k hk => ?_⟩
  rw [← h.find k hk]
  refine Option.ext fun v => ?_
  rw [wf.find_eq_some, h.wf.find_eq_some, hs.2]

/-- **A call takes effect as it would on the map.** -/
theorem TakesEffect.call {s s' : SharedTrie ρ σ} {o : Option ρ} {c : Call ρ}
    (h : TakesEffect ops s s' o c) (href : s.trie.Refines keySize m.map)
    (hstore : s.store = m.store) (wf : s'.trie.Wf) (hsize : s'.trie.keySize = s.trie.keySize) :
    (m.call ops c).1 = o ∧ s'.trie.Refines keySize (m.call ops c).2.map ∧
      s'.store = (m.call ops c).2.store := by
  cases c with
  | lookup key =>
    obtain ⟨hkey, rfl, hsame⟩ := h
    exact ⟨(href.find key (href.keySize ▸ hkey)).symm, href.sameMap hsame wf hsize,
      hsame.1.trans hstore⟩
  | insert key value =>
    obtain ⟨hkey, v, rfl, hins⟩ := h
    have hfind := href.find key (href.keySize ▸ hkey)
    rcases hins.result with ⟨hb, hs', hbinds⟩ | ⟨hnone, hv, hs', hbinds⟩
    · have hm : m.map key = some v := hfind ▸ href.wf.find_eq_some.mpr hb
      simp only [MapState.call, MapState.insert_of_some hm]
      refine ⟨trivial, ?_, hs'.trans (by rw [hstore])⟩
      refine ⟨wf, hsize.trans href.keySize, fun k hk => ?_⟩
      rw [← href.find k hk]
      refine Option.ext fun w => ?_
      rw [wf.find_eq_some, href.wf.find_eq_some]
      exact hbinds k w
    · have hm : m.map key = none := hfind ▸ href.wf.find_eq_none.mpr hnone
      obtain rfl : v = value := hv
      simp only [MapState.call, MapState.insert_of_none hm]
      refine ⟨trivial, ⟨wf, hsize.trans href.keySize, fun k hk => ?_⟩, hs'.trans hstore⟩
      refine Option.ext fun w => ?_
      rw [wf.find_eq_some]
      refine (hbinds k w).trans ?_
      by_cases hkk : k = key
      · subst hkk
        simp [hnone, eq_comm]
      · rw [← href.wf.find_eq_some, href.find k hk]
        simp [hkk]

/-- A call in the order in which the calls take effect: the thread, the call and its answer. -/
abbrev Entry (ρ : Type) : Type := Nat × Call ρ × Option ρ

/-- The calls of a log, made one after the other on the map, are what the threads have done. -/
structure Explains (ops : TrieValue ρ σ) (keySize : Nat) (m : MapState ρ σ)
    (s : TrieThreads ρ σ δ) (log : List (Entry ρ)) : Prop where
  once : (log.map Prod.fst).Nodup
  begun : ∀ i c o, (i, c, o) ∈ log →
    ∃ th, s.locals[i]? = some th ∧ th.call = some c ∧ th.Begun
  returned : ∀ i th c o, s.locals[i]? = some th → th.call = some c → th.result = some o →
    (i, c, o) ∈ log
  results : (m.run ops (log.map fun e => e.2.1)).1 = log.map fun e => e.2.2
  trie : s.shared.trie.Refines keySize (m.run ops (log.map fun e => e.2.1)).2.map
  store : s.shared.store = (m.run ops (log.map fun e => e.2.1)).2.store

/-- The log has the calls with an answer. -/
structure Logged (ops : TrieValue ρ σ) (keySize : Nat) (m : MapState ρ σ)
    (s : TrieThreads ρ σ δ) (log : List (Entry ρ)) : Prop where
  sound : Sound s
  once : (log.map Prod.fst).Nodup
  mem_iff : ∀ i c o, (i, c, o) ∈ log ↔ ∃ th, s.locals[i]? = some th ∧ th.call = some c ∧
    th.answer s.shared.trie = some o
  results : (m.run ops (log.map fun e => e.2.1)).1 = log.map fun e => e.2.2
  trie : s.shared.trie.Refines keySize (m.run ops (log.map fun e => e.2.1)).2.map
  store : s.shared.store = (m.run ops (log.map fun e => e.2.1)).2.store

namespace Logged

variable {s s' : TrieThreads ρ σ δ} {log : List (Entry ρ)} {i : Nat}

theorem explains (h : Logged ops keySize m s log) : Explains ops keySize m s log where
  once := h.once
  begun := fun i c o hmem => by
    obtain ⟨th, hth, hcall, hanswer⟩ := (h.mem_iff i c o).mp hmem
    exact ⟨th, hth, hcall, TrieThread.begun_of_answer hanswer⟩
  returned := fun i th c o hth hcall hresult =>
    (h.mem_iff i c o).mpr ⟨th, hth, hcall, TrieThread.answer_of_result _ hresult⟩
  results := h.results
  trie := h.trie
  store := h.store

/-- **A step adds the call that takes effect to the log.** -/
theorem step (h : Logged ops keySize m s log)
    (hstep : s.step (TrieThread.advance ops) i = some s') :
    ∃ log', Logged ops keySize m s' (log ++ log') := by
  obtain ⟨hsound, ⟨-, rfl⟩ | ⟨th, th', hth, hlocals, ha⟩⟩ := h.sound.step hstep
  · exact ⟨[], by rwa [List.append_nil]⟩
  · -- the answers of the others stay
    have hothers : ∀ j c o, i ≠ j →
        ((∃ x, s'.locals[j]? = some x ∧ x.call = some c ∧ x.answer s'.shared.trie = some o) ↔
          (j, c, o) ∈ log) := by
      intro j c o hij
      rw [h.mem_iff, hlocals, Parties.get_set_ne hij]
      refine exists_congr fun x => and_congr_right fun hx => ?_
      rw [ha.effect.answer (h.sound.place x (Parties.mem_of_get hx))]
    have hself : s'.locals[i]? = some th' := hlocals ▸ Parties.get_set_self hth th'
    rcases ha.updates with ⟨hanswer, hsame⟩ | ⟨c, o, hnone, hcall, hsome, heffect⟩
    · refine ⟨[], ?_⟩
      rw [List.append_nil]
      refine ⟨hsound, h.once, fun j c o => ?_, h.results,
        h.trie.sameMap hsame hsound.wf ha.effect.keySize, hsame.1.trans h.store⟩
      by_cases hij : i = j
      · subst hij
        rw [h.mem_iff, hth, hself]
        simp only [Option.some.injEq, exists_eq_left', ha.call, hanswer]
      · exact (hothers j c o hij).symm
    · refine ⟨[(i, c, o)], ?_⟩
      obtain ⟨hresult, htrie, hstore⟩ :=
        heffect.call h.trie h.store hsound.wf ha.effect.keySize
      have hnew : ∀ c o, (i, c, o) ∉ log := fun c o hmem => by
        obtain ⟨x, hx, -, hx'⟩ := (h.mem_iff i c o).mp hmem
        rw [hth] at hx
        rw [← Option.some.inj hx, hnone] at hx'
        cases hx'
      refine ⟨hsound, ?_, fun j c' o' => ?_, ?_, ?_, ?_⟩
      · rw [List.map_append, List.nodup_append]
        refine ⟨h.once, List.nodup_singleton _, fun x hx y hy hxy => ?_⟩
        obtain ⟨⟨j, c', o'⟩, hmem, rfl⟩ := List.mem_map.mp hx
        obtain rfl : y = i := List.mem_singleton.mp hy
        obtain rfl : j = y := hxy
        exact hnew c' o' hmem
      · by_cases hij : i = j
        · subst hij
          simp only [List.mem_append, List.mem_singleton, hnew, false_or, hself,
            Option.some.injEq, exists_eq_left', ha.call, hcall, hsome, Prod.mk.injEq, true_and,
            eq_comm]
        · rw [hothers j c' o' hij, List.mem_append, List.mem_singleton, or_iff_left]
          exact fun he => hij (Prod.mk.inj he).1.symm
      · rw [List.map_append, List.map_append, MapState.run_append_fst, h.results]
        exact congrArg (_ ++ [·]) hresult
      · rw [List.map_append, MapState.run_append]
        exact htrie
      · rw [List.map_append, MapState.run_append]
        exact hstore

end Logged

/-! ## From the beginning -/

/-- Threads that are about to call operations of a trie. -/
def startThreads (t : HandleTrie ρ) (store : σ) (threads : List (TrieThread ρ δ)) :
    TrieThreads ρ σ δ :=
  { shared := { trie := t, store := store, locked := ∅ }, locals := threads }

theorem begins_held {th : TrieThread ρ δ} (h : th.Begins keySize) (root : Nat) :
    th.held root = ∅ := by
  cases th with
  | insert key value stage => cases stage <;> first | rfl | exact h.elim
  | lookup => rfl
  | traverse keep visit data stage => cases stage <;> first | rfl | exact h.elim

theorem begins_inPlace {t : HandleTrie ρ} {th : TrieThread ρ δ} (h : th.Begins t.keySize) :
    th.InPlace t := by
  cases th with
  | insert key value stage => cases stage <;> first | exact ⟨h, trivial⟩ | exact h.elim
  | lookup key stage => cases stage <;> first | exact h | exact h.elim
  | traverse keep visit data stage => cases stage <;> trivial

theorem begins_answer {th : TrieThread ρ δ} (h : th.Begins keySize) (t : HandleTrie ρ) :
    th.answer t = none := by
  cases th with
  | insert key value stage => cases stage <;> first | rfl | exact h.elim
  | lookup key stage => cases stage <;> first | rfl | exact h.elim
  | traverse => rfl

theorem Sound.start {t : HandleTrie ρ} (wf : t.Wf) (store : σ) {threads : List (TrieThread ρ δ)}
    (h : ∀ th ∈ threads, th.Begins t.keySize) : Sound (startThreads t store threads) where
  wf := wf
  place := fun th hth => begins_inPlace (h th hth)
  locks := Parties.Owned.start fun th hth => begins_held (h th hth) _

theorem Logged.start {t : HandleTrie ρ} (wf : t.Wf) (store : σ)
    {threads : List (TrieThread ρ δ)} (h : ∀ th ∈ threads, th.Begins t.keySize) :
    Logged ops t.keySize { map := t.find, store := store } (startThreads t store threads) [] where
  sound := Sound.start wf store h
  once := List.nodup_nil
  mem_iff := fun i c o => by
    refine ⟨nofun, fun ⟨th, hth, _, hanswer⟩ => ?_⟩
    rw [begins_answer (h th (List.mem_of_getElem? hth))] at hanswer
    cases hanswer
  results := rfl
  trie := ⟨wf, rfl, fun _ _ => rfl⟩
  store := rfl

/--
**Concurrent calls on a trie are linearizable.**

In every interleaving of the threads' steps, the calls of `insert` and `lookup` made so far do what
they do when they are made one after the other on the map, in the order of a log. The log at an
earlier moment begins the one at a later moment. It has every call that had returned by then and no
call that had not begun, so calls that do not overlap are in their order.
-/
theorem threads_linearizable (ops : TrieValue ρ σ) {t : HandleTrie ρ} (ht : t.Reachable ops)
    (store : σ) {threads : List (TrieThread ρ δ)} (hbegins : ∀ th ∈ threads, th.Begins t.keySize)
    (schedule : List Nat) {s : TrieThreads ρ σ δ}
    (hrun : run (Parties.step (TrieThread.advance ops)) (startThreads t store threads) schedule
      = some s) :
    ∃ log, Explains ops t.keySize { map := t.find, store := store } s log ∧
      ∀ before after s₁, schedule = before ++ after →
        run (Parties.step (TrieThread.advance ops)) (startThreads t store threads) before
          = some s₁ →
        ∃ log₁ log₂, log = log₁ ++ log₂ ∧
          Explains ops t.keySize { map := t.find, store := store } s₁ log₁ := by
  obtain ⟨log, hlog, hparts⟩ := run_records
    (Logged ops t.keySize { map := t.find, store := store })
    (fun s log i s' h hstep => h.step hstep) schedule _ s [] hrun (Logged.start ht.wf store hbegins)
  refine ⟨log, hlog.explains, fun before after s₁ heq hbefore => ?_⟩
  obtain ⟨log₁, log₂, hsplit, hlog₁⟩ := hparts before after s₁ heq hbefore
  exact ⟨log₁, log₂, hsplit, hlog₁.explains⟩

/-- Inserts `"00"` and `"01"` and looks `"00"` up. -/
def threeThreads : List (TrieThread Nat Unit) :=
  [.insert [48, 48] 0 .entered, .insert [48, 49] 1 .entered, .lookup [48, 48] .entered]

/-- The leaf of `"00"` is pushed down after the `lookup` has read its address. -/
theorem threads_linearizable_split :
    ∃ (t : HandleTrie Nat) (s : TrieThreads Nat (Nat → Nat) Unit), t.Reachable counterValue ∧
      run (Parties.step (TrieThread.advance counterValue))
        (startThreads t (fun _ => 1) threeThreads) [0, 0, 2, 2, 1, 1, 1, 1, 2] = some s ∧
      s.locals.map TrieThread.result = [some (some 0), some (some 1), some (some 0)] ∧
      ∃ log, Explains counterValue t.keySize { map := t.find, store := fun _ => 1 } s log ∧
        ∀ before after s₁, [0, 0, 2, 2, 1, 1, 1, 1, 2] = before ++ after →
          run (Parties.step (TrieThread.advance counterValue))
            (startThreads t (fun _ => 1) threeThreads) before = some s₁ →
          ∃ log₁ log₂, log = log₁ ++ log₂ ∧
            Explains counterValue t.keySize { map := t.find, store := fun _ => 1 } s₁ log₁ := by
  obtain ⟨t, ht, hsize, s, hrun, hresults⟩ : ∃ t : HandleTrie Nat, t.Reachable counterValue ∧
      t.keySize = 2 ∧ ∃ s, run (Parties.step (TrieThread.advance counterValue))
        (startThreads t (fun _ => 1) threeThreads) [0, 0, 2, 2, 1, 1, 1, 1, 2] = some s ∧
      s.locals.map TrieThread.result = [some (some 0), some (some 1), some (some 0)] :=
    ⟨new 2 (by decide) (by decide),
      ⟨2, by decide, by decide, [], fun _ => 1, _, _, nofun, rfl⟩, rfl, _, rfl, rfl⟩
  have hbegins : ∀ th ∈ threeThreads, th.Begins t.keySize := by
    rw [hsize]
    simp [threeThreads, TrieThread.Begins, ValidKey, IsHex]
  exact ⟨t, s, ht, hrun, hresults, threads_linearizable counterValue ht _ hbegins _ hrun⟩

end HandleTrie

end AttentionBroker
