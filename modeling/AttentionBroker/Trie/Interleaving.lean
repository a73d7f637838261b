import AttentionBroker.Trie.Interference

/-!
# Interleavings of threads on one trie

`Advances` says what the next step of a thread does: to the trie, to the mutexes, and to the map
if its answer becomes known then. An insertion has its answer when it returns. A `lookup` has it
when it reads the address of a leaf, or NULL: what is inserted afterwards makes no difference.

`Sound` is the invariant of all threads. The mutexes locked are those that the threads have, each
once, and every thread is in its place.
-/

namespace AttentionBroker

open Infra

namespace HandleTrie

/-- The stack of a traversal has nodes of the tree, and the root only at the beginning. -/
def Stacked {ρ : Type} (t : HandleTrie ρ) (stack : List Nat) : Prop :=
  (∀ a ∈ stack, ∃ p, t.nodeAt p = some a) ∧ (t.root ∈ stack → stack = [t.root])

end HandleTrie

namespace TrieThread

variable {ρ σ δ : Type}

/-- The mutexes that a thread has. -/
def held (root : Nat) : TrieThread ρ δ → Finset Nat
  | insert _ _ stage => stage.held
  | traverse keepRootLocked _ _ (.visiting st) =>
    if keepRootLocked ∧ root ∉ st.nodeStack then {root} else ∅
  | _ => ∅

/-- The node whose mutex a thread locks next. -/
def awaits (t : HandleTrie ρ) : TrieThread ρ δ → Option Nat
  | insert _ _ stage => stage.awaits t
  | lookup _ (.visiting st) => st.treeCursor
  | traverse _ _ _ (.visiting st) => st.nodeStack.head?
  | _ => none

/-- The call of a thread has returned. -/
def Returned : TrieThread ρ δ → Prop
  | insert _ _ stage => ∃ v, stage = .returned v
  | lookup _ stage => ∃ o, stage = .returned o
  | traverse _ _ _ stage => ∃ data, stage = .returned data

/-- A thread is in its place. -/
def InPlace (t : HandleTrie ρ) : TrieThread ρ δ → Prop
  | insert key _ stage => ValidKey t.keySize key ∧ stage.InPlace t key
  | lookup key (.visiting st) => ValidKey t.keySize key ∧ HandleTrie.Seeking none key t st
  | lookup key _ => ValidKey t.keySize key
  | traverse _ _ _ (.visiting st) => t.Stacked st.nodeStack
  | traverse _ _ _ _ => True

/-- A bound on the steps of a thread that are to come. -/
noncomputable def toGo (t : HandleTrie ρ) : TrieThread ρ δ → Nat
  | insert _ _ stage => stage.toGo t.keySize
  | lookup _ .entered => t.keySize + 3
  | lookup _ (.visiting st) => HandleTrie.lookupMeasure t st + 1
  | traverse _ _ _ .entered => 17 ^ (t.keySize + 1) + 2
  | traverse _ _ _ (.visiting st) => HandleTrie.traverseMeasure t st + 1
  | lookup _ (.returned _) | traverse _ _ _ (.returned _) => 0

/-- The call of a thread, as one on the map. -/
def call : TrieThread ρ δ → Option (Call ρ)
  | insert key value _ => some (.insert key value)
  | lookup key _ => some (.lookup key)
  | traverse _ _ _ _ => none

/-- The answer to the call of a thread, when it is known. -/
def answer (t : HandleTrie ρ) : TrieThread ρ δ → Option (Option ρ)
  | insert _ _ (.returned v) => some (some v)
  | lookup _ (.returned o) => some o
  | lookup key (.visiting st) =>
    match st.treeCursor with
    | none => some none
    | some a =>
      if 0 < (t.node a).suffixStart then
        some (if (t.node a).suffix = key then (t.node a).value else none)
      else none
  | _ => none

end TrieThread

namespace HandleTrie

variable {ρ σ δ : Type} {ops : TrieValue ρ σ} {t t' : HandleTrie ρ} {key : Key} {value : ρ}
  {s s' : SharedTrie ρ σ} {thread thread' : TrieThread ρ δ} {st : LookupState}

/-- The map and the store are as they were. -/
def SameMap (s s' : SharedTrie ρ σ) : Prop :=
  s'.store = s.store ∧ ∀ k v, s'.trie.Binds k v ↔ s.trie.Binds k v

/-- What a step does that makes the answer to a call known. -/
def TakesEffect (ops : TrieValue ρ σ) (s s' : SharedTrie ρ σ) (o : Option ρ) : Call ρ → Prop
  | .insert key value => ValidKey s.trie.keySize key ∧
    ∃ v, o = some v ∧ Inserted ops s.trie key value s.store (v, s'.trie, s'.store)
  | .lookup key => ValidKey s.trie.keySize key ∧ o = s.trie.find key ∧ SameMap s s'

/-- What the next step of a thread does. -/
structure Advances (ops : TrieValue ρ σ) (thread : TrieThread ρ δ) (s s' : SharedTrie ρ σ)
    (thread' : TrieThread ρ δ) : Prop where
  effect : Effect (thread.held s.trie.root) s.trie s'.trie
  place : thread'.InPlace s'.trie
  locks : Exchanges (thread.held s.trie.root) (thread'.held s.trie.root) s.locked s'.locked
  fewer : thread'.toGo s'.trie < thread.toGo s.trie
  call : thread'.call = thread.call
  updates : (thread'.answer s'.trie = thread.answer s.trie ∧ SameMap s s') ∨
    ∃ c o, thread.answer s.trie = none ∧ thread.call = some c ∧
      thread'.answer s'.trie = some o ∧ TakesEffect ops s s' o c

theorem Outcome.bind {β γ : Type} {locked : Finset Nat} {awaits : Option Nat}
    {Returned Returned' : Prop} {Post : SharedTrie ρ σ → β → Prop}
    {Post' : SharedTrie ρ σ → γ → Prop} {f : β → γ} {r : Except Obstacle (SharedTrie ρ σ × β)}
    (h : Outcome locked awaits Returned Post r) (hreturned : Returned → Returned')
    (hpost : ∀ s b, Post s b → Post' s (f b)) :
    Outcome locked awaits Returned' Post' (r >>= fun x => .ok (x.1, f x.2)) := by
  match r, h with
  | .ok (s, b), h => exact hpost s b h
  | .error .waits, h => exact h
  | .error .returned, h => exact hreturned h

theorem InsertSteps.advances {stage stage' : InsertStage ρ}
    (h : InsertSteps ops key value s stage s' stage') (hkey : ValidKey s.trie.keySize key) :
    Advances ops (TrieThread.insert key value stage : TrieThread ρ δ) s s'
      (.insert key value stage') where
  effect := h.effect
  place := ⟨h.effect.keySize.symm ▸ hkey, h.place⟩
  locks := h.locks
  fewer := by
    show stage'.toGo s'.trie.keySize < stage.toGo s.trie.keySize
    rw [h.effect.keySize]
    exact h.fewer
  call := rfl
  updates := by
    have hnone : (TrieThread.insert key value stage : TrieThread ρ δ).answer s.trie = none := by
      cases stage with
      | returned v => exact absurd h.fewer (Nat.not_lt_zero _)
      | entered | holding | descending => rfl
    have hupdates := h.updates
    cases stage' with
    | returned v => exact .inr ⟨_, _, hnone, rfl, rfl, hkey, v, rfl, hupdates⟩
    | entered | holding | descending => exact .inl ⟨hnone.symm, hupdates⟩

/-! ## Steps of a lookup -/

/-- **A `lookup` that reads the address of a leaf, or NULL, has its answer**: what the map says. -/
theorem Seeking.answer_child (wf : t.Wf) (hkey : ValidKey t.keySize key) {kc : UInt8} {a : Nat}
    (h : Seeking none key t ⟨some a, kc⟩) (hin : ¬ 0 < (t.node a).suffixStart) {o : Option ρ}
    {next : Option Nat} (hnext : lookupBody t key ⟨some a, kc⟩ = .ok (.inl ⟨next, kc + 1⟩))
    (hanswer : (TrieThread.lookup key (.visiting ⟨next, kc + 1⟩) : TrieThread ρ δ).answer t
      = some o) : o = t.find key := by
  have hat := h.inner a rfl hin
  obtain ⟨_, -, hlt, -⟩ := h.visit_inner hkey.1 wf hin
  have hik : kc.toNat < key.length := hkey.1.symm ▸ hlt
  rw [lookupBody_inner hik hin] at hnext
  obtain rfl : t.kids a (TLB key[kc.toNat]) = next := by
    simpa using Except.ok.inj hnext
  cases hc : t.kids a (TLB key[kc.toNat]) with
  | none =>
    rw [hc] at hanswer
    rw [← Option.some.inj hanswer, eq_comm, wf.find_eq_none]
    exact wf.unbound_of_slot hik hat hin hc
  | some b =>
    have hb : t.nodeAt ((code key).take (kc.toNat + 1)) = some b := by
      rw [code_take_succ hik]
      exact nodeAt_kid hat hc
    simp only [TrieThread.answer, hc] at hanswer
    by_cases hl : 0 < (t.node b).suffixStart
    · rw [if_pos hl] at hanswer
      rw [← Option.some.inj hanswer]
      by_cases hsame : (t.node b).suffix = key
      · obtain ⟨v, hv⟩ := (wf.fits _ b hb).value hl
        rw [if_pos hsame, hv, eq_comm, wf.find_eq_some]
        exact ⟨_, b, hb, hl, hsame, hv⟩
      · rw [if_neg hsame, eq_comm, wf.find_eq_none]
        exact fun v hv => hsame (wf.suffix_of_binds hb (List.take_prefix _ _) hl hv)
    · rw [if_neg hl] at hanswer
      cases hanswer

theorem SameMap.refl (s : SharedTrie ρ σ) : SameMap s s := ⟨rfl, fun _ _ => Iff.rfl⟩

/-- **A pass of a `lookup`.** -/
theorem lookupVisit_outcome (ops : TrieValue ρ σ) (wf : s.trie.Wf)
    (hkey : ValidKey s.trie.keySize key) (h : Seeking none key s.trie st) :
    Outcome s.locked st.treeCursor False
      (fun s' r => Advances ops (.lookup key (.visiting st) : TrieThread ρ δ) s s'
        (.lookup key (.ofBody r)))
      (lookupVisit key st s) := by
  have hp := (lookup_reads hkey.1).visit s.trie st wf ⟨rfl, h⟩
  obtain ⟨cursor, kc⟩ := st
  cases cursor with
  | none =>
    exact ⟨Effect.refl wf _, hkey, Exchanges.refl (Finset.empty_subset _), Nat.succ_pos _, rfl,
      .inl ⟨rfl, SameMap.refl s⟩⟩
  | some a =>
    unfold lookupVisit
    by_cases hfree : a ∈ s.locked
    · simp only [SharedTrie.lock, if_pos hfree]
      exact ⟨a, hfree, rfl⟩
    · simp only [SharedTrie.lock_eq_ok.mpr ⟨hfree, rfl⟩, bind, Except.bind]
      have hunlock : ({ s with locked := Insert.insert a s.locked } : SharedTrie ρ σ).unlock a = s := by
        unfold SharedTrie.unlock
        rw [Finset.erase_insert hfree]
      cases hbody : lookupBody s.trie key ⟨some a, kc⟩ with
      | error e =>
        rw [hbody] at hp
        exact hp.elim
      | ok r =>
        rw [hbody] at hp
        show Advances ops _ s (SharedTrie.unlock _ a) _
        rw [hunlock]
        refine ⟨Effect.refl wf _, ?_, Exchanges.refl (Finset.empty_subset _), ?_, rfl, ?_⟩
        · cases r with
          | inl st => exact ⟨hkey, hp.1.2⟩
          | inr o => exact hkey
        · cases r with
          | inl st => exact Nat.succ_lt_succ hp.2
          | inr o => exact Nat.succ_pos _
        · by_cases hl : 0 < (s.trie.node a).suffixStart
          · obtain ⟨⟨p, hp⟩, -⟩ := h.leaf a rfl hl
            have htake := h.leaf_take hkey wf hl
            rw [lookupBody_leaf (hkey.1.symm ▸ h.cursor)
              (hkey.1.trans ((wf.fits p a hp).key hl).1.symm) hl htake] at hbody
            rw [← Except.ok.inj hbody]
            exact .inl ⟨(if_pos hl).symm, SameMap.refl s⟩
          · obtain ⟨next, hnext, -, -⟩ := h.visit_inner hkey.1 wf hl
            obtain rfl := Except.ok.inj (hbody.symm.trans hnext)
            have hnone : (TrieThread.lookup key (.visiting ⟨some a, kc⟩) : TrieThread ρ δ).answer
                s.trie = none := if_neg hl
            cases hanswer : (TrieThread.lookup key (.visiting ⟨next, kc + 1⟩) :
                TrieThread ρ δ).answer s.trie with
            | none => exact .inl ⟨hanswer.trans hnone.symm, SameMap.refl s⟩
            | some o => exact .inr ⟨_, o, hnone, rfl, hanswer, hkey,
                h.answer_child wf hkey hl hbody hanswer, SameMap.refl s⟩

/-! ## Steps of a traversal -/

/-- What is below the top, once the root has been popped or was not there. -/
theorem Stacked.rest {a : Nat} {stack : List Nat} (h : Stacked t (a :: stack)) :
    (∀ b ∈ stack, ∃ p, t.nodeAt p = some b) ∧ t.root ∉ stack := by
  refine ⟨fun b hb => h.1 b (List.mem_cons_of_mem a hb), fun hroot => ?_⟩
  have hnil := (List.cons.inj (h.2 (List.mem_cons_of_mem a hroot))).2
  rw [hnil] at hroot
  exact List.not_mem_nil hroot

theorem Stacked.children {a : Nat} {stack : List Nat} (h : Stacked t (a :: stack)) (wf : t.Wf) :
    (∀ b ∈ t.childList a ++ stack, ∃ p, t.nodeAt p = some b) ∧
      t.root ∉ t.childList a ++ stack := by
  obtain ⟨hrest, hroot⟩ := h.rest
  obtain ⟨p, hp⟩ := h.1 a List.mem_cons_self
  have hchild : ∀ b ∈ t.childList a, ∃ c, t.nodeAt (p ++ [c]) = some b := fun b hb => by
    obtain ⟨c, hc⟩ := mem_childList.mp hb
    exact ⟨c, nodeAt_kid hp hc⟩
  refine ⟨fun b hb => ?_, fun hmem => ?_⟩
  · rcases List.mem_append.mp hb with hb | hb
    · obtain ⟨c, hc⟩ := hchild b hb
      exact ⟨_, hc⟩
    · exact hrest b hb
  · rcases List.mem_append.mp hmem with hmem | hmem
    · obtain ⟨c, hc⟩ := hchild _ hmem
      have hnil := wf.tree _ _ _ hc (nodeAt_nil t)
      simp at hnil
    · exact hroot hmem

/-- What a traversal that has visited a node does next. -/
inductive Visited (t : HandleTrie ρ) (a : Nat) (stack : List Nat) (data : δ) :
    TraverseState δ ⊕ δ → Prop
  | leaf {data' : δ} (hl : 0 < (t.node a).suffixStart) : Visited t a stack data (.inl ⟨stack, data'⟩)
  | stopped {data' : δ} (hl : 0 < (t.node a).suffixStart) : Visited t a stack data (.inr data')
  | inner (hin : ¬ 0 < (t.node a).suffixStart) :
      Visited t a stack data (.inl ⟨t.childList a ++ stack, data⟩)

/-- **A pass of a traversal.** -/
theorem traverseVisit_cons {keep : Bool} {visit : TrieNode ρ → δ → Bool × δ} {a : Nat}
    {stack : List Nat} {data : δ} (wf : s.trie.Wf)
    (hfree : a ∉ s.locked) : ∃ s' r, traverseVisit keep visit ⟨a :: stack, data⟩ s = .ok (s', r) ∧
      Visited s.trie a stack data r ∧ s'.trie = s.trie ∧ s'.store = s.store ∧
      s'.locked = match r with
        | .inl _ => if keep ∧ a = s.trie.root then Insert.insert a s.locked else s.locked
        | .inr _ => if keep then s.locked.erase s.trie.root else s.locked := by
  have hunlock : ({ s with locked := Insert.insert a s.locked } : SharedTrie ρ σ).unlock a = s := by
    unfold SharedTrie.unlock
    rw [Finset.erase_insert hfree]
  have hgoOn : (if ¬ keep ∨ a ≠ s.trie.root then
        ({ s with locked := Insert.insert a s.locked } : SharedTrie ρ σ).unlock a
      else { s with locked := Insert.insert a s.locked })
      = { s with locked := if keep ∧ a = s.trie.root then Insert.insert a s.locked
          else s.locked } := by
    rw [hunlock]
    by_cases hc : keep ∧ a = s.trie.root
    · rw [if_neg (by simp [hc]), if_pos hc]
    · rw [if_pos (by rw [← Classical.not_and_iff_not_or_not]; exact hc), if_neg hc]
  unfold traverseVisit
  simp only [SharedTrie.lock_eq_ok.mpr ⟨hfree, rfl⟩, bind, Except.bind]
  by_cases hl : 0 < (s.trie.node a).suffixStart
  · have hroot : s.trie.root ≠ a := fun hroot => wf.root_inner (hroot ▸ hl)
    rw [if_pos hl]
    cases hstop : (visit (s.trie.node a) data).1 with
    | true =>
      simp only [if_true]
      refine ⟨_, _, rfl, .stopped hl, ?_, ?_, ?_⟩
      · split <;> rfl
      · split <;> rfl
      · cases keep with
        | true =>
          simp only [hroot, ne_eq, not_false_eq_true, and_self, if_true]
          show ((Insert.insert a s.locked).erase s.trie.root).erase a = _
          rw [Finset.erase_right_comm, Finset.erase_insert hfree]
        | false =>
          simp only [Bool.false_eq_true, false_and, if_false]
          rw [hunlock]
    | false =>
      simp only [Bool.false_eq_true, if_false, hgoOn]
      exact ⟨_, _, rfl, .leaf hl, rfl, rfl, rfl⟩
  · rw [if_neg hl]
    simp only [hgoOn, pushChildren_eq]
    exact ⟨_, _, rfl, .inner hl, rfl, rfl, rfl⟩

/-- The measure of a traversal drops. -/
theorem Visited.fewer {a : Nat} {stack : List Nat} {data : δ} {st' : TraverseState δ} (wf : t.Wf)
    (h : Visited t a stack data (.inl st')) (hstack : Stacked t (a :: stack)) :
    traverseMeasure t st' < traverseMeasure t (⟨a :: stack, data⟩ : TraverseState δ) := by
  unfold traverseMeasure
  rw [List.map_cons, List.sum_cons]
  cases h with
  | leaf hl => exact Nat.lt_add_of_pos_left (t.weight_pos a)
  | inner hin =>
    obtain ⟨p, hp⟩ := hstack.1 a List.mem_cons_self
    rw [List.map_append, List.sum_append]
    exact Nat.add_lt_add_right (wf.weight_children hp hin) _

theorem Visited.stacked {a : Nat} {stack : List Nat} {data : δ} {st' : TraverseState δ} (wf : t.Wf)
    (h : Visited t a stack data (.inl st')) (hstack : Stacked t (a :: stack)) :
    (∀ b ∈ st'.nodeStack, ∃ p, t.nodeAt p = some b) ∧ t.root ∉ st'.nodeStack := by
  cases h with
  | leaf => exact hstack.rest
  | inner => exact hstack.children wf

/-- **A pass of a traversal.** -/
theorem traverseVisit_outcome (ops : TrieValue ρ σ) {keep : Bool}
    {visit : TrieNode ρ → δ → Bool × δ} {data : δ} {st : TraverseState δ} (wf : s.trie.Wf)
    (h : Stacked s.trie st.nodeStack)
    (hheld : (TrieThread.traverse keep visit data (.visiting st) : TrieThread ρ δ).held
      s.trie.root ⊆ s.locked) :
    Outcome s.locked st.nodeStack.head? False
      (fun s' r => Advances ops (.traverse keep visit data (.visiting st)) s s'
        (.traverse keep visit data (.ofBody r)))
      (traverseVisit keep visit st s) := by
  obtain ⟨stack, data'⟩ := st
  cases stack with
  | nil =>
    cases keep with
    | true =>
      refine ⟨Effect.refl wf _, trivial, ?_, Nat.succ_pos _, rfl, .inl ⟨rfl, SameMap.refl s⟩⟩
      have hlocks := Exchanges.release hheld (Finset.empty_subset _)
      simpa [TrieThread.held, ReaderStage.ofBody, SharedTrie.unlock,
        Finset.sdiff_singleton_eq_erase] using hlocks
    | false =>
      exact ⟨Effect.refl wf _, trivial, Exchanges.refl (Finset.empty_subset _), Nat.succ_pos _, rfl,
        .inl ⟨rfl, SameMap.refl s⟩⟩
  | cons a stack =>
    by_cases hfree : a ∈ s.locked
    · simp only [traverseVisit, SharedTrie.lock, if_pos hfree]
      exact ⟨a, hfree, rfl⟩
    · obtain ⟨s', r, hvisit, hvisited, htrie, hstore, hlocked⟩ := traverseVisit_cons wf hfree
      rw [hvisit]
      have hsame : SameMap s s' := ⟨hstore, fun k v => by rw [htrie]⟩
      have heffect : ∀ held, Effect held s.trie s'.trie := fun held => by
        rw [htrie]
        exact Effect.refl wf held
      have htop : s.trie.root ∈ a :: stack ↔ a = s.trie.root :=
        ⟨fun hmem => (List.cons.inj (h.2 hmem)).1, fun heq => heq ▸ List.mem_cons_self⟩
      cases r with
      | inr data'' =>
        have hne : a ≠ s.trie.root := by
          cases hvisited with
          | stopped hl => exact fun heq => wf.root_inner (heq ▸ hl)
        refine ⟨heffect _, trivial, ?_, Nat.succ_pos _, rfl, .inl ⟨rfl, hsame⟩⟩
        have hlocks := Exchanges.release hheld (Finset.empty_subset _)
        cases keep <;> simpa [TrieThread.held, ReaderStage.ofBody, htop, hne, hlocked,
          Finset.sdiff_singleton_eq_erase] using hlocks
      | inl st' =>
        obtain ⟨hin, hnot⟩ := hvisited.stacked wf h
        refine ⟨heffect _, ?_, ?_, ?_, rfl, .inl ⟨rfl, hsame⟩⟩
        · rw [htrie]
          exact ⟨hin, fun hmem => absurd hmem hnot⟩
        · simp only [TrieThread.held, ReaderStage.ofBody, htop, hnot, hlocked] at hheld ⊢
          by_cases heq : a = s.trie.root
          · cases keep with
            | true =>
              subst heq
              simpa using Exchanges.acquire (Finset.empty_subset _) hfree rfl
            | false => simpa using Exchanges.refl (Finset.empty_subset _)
          · simp only [heq, and_false, if_false, not_false_eq_true, and_true] at hheld ⊢
            exact Exchanges.refl hheld
        · rw [htrie]
          exact Nat.succ_lt_succ (hvisited.fewer wf h)

/-! ## Steps of a thread -/

/-- **The next step of a thread does not fail.** -/
theorem advance_outcome (ops : TrieValue ρ σ) (wf : s.trie.Wf) (hplace : thread.InPlace s.trie)
    (hheld : thread.held s.trie.root ⊆ s.locked) (halloc : ∀ a ∈ s.locked, a < s.trie.heap.next) :
    Outcome s.locked (thread.awaits s.trie) thread.Returned (Advances ops thread s)
      (thread.advance ops s) := by
  cases thread with
  | insert key value stage =>
    obtain ⟨hkey, hplace⟩ := hplace
    exact (insertStep_outcome ops value wf hkey hplace hheld halloc).bind (fun h => h)
      fun s' stage' h => h.advances hkey
  | lookup key stage =>
    cases stage with
    | entered =>
      have hsize : s.trie.checkSize key = .ok () := if_neg (not_not.mpr hplace.1)
      simp only [TrieThread.advance, hsize, Except.mapError, bind, Except.bind]
      refine ⟨Effect.refl wf _, ⟨hplace, Seeking.start wf nofun⟩,
        Exchanges.refl (Finset.empty_subset _), Nat.lt_succ_self _, rfl, .inl ⟨?_, SameMap.refl s⟩⟩
      exact if_neg wf.root_inner
    | visiting st =>
      exact (lookupVisit_outcome ops wf hplace.1 hplace.2).bind False.elim fun s' r h => h
    | returned o => exact ⟨o, rfl⟩
  | traverse keep visit data stage =>
    cases stage with
    | entered =>
      have hnone : (TrieThread.traverse keep visit data (.visiting ⟨[s.trie.root], data⟩) :
          TrieThread ρ δ).held s.trie.root = ∅ := by simp [TrieThread.held]
      refine ⟨Effect.refl wf _, ⟨?_, fun _ => rfl⟩, ?_, ?_, rfl, .inl ⟨rfl, SameMap.refl s⟩⟩
      · intro a ha
        exact ⟨[], by rw [List.mem_singleton.mp ha, nodeAt_nil]⟩
      · rw [hnone]
        exact Exchanges.refl (Finset.empty_subset _)
      · simp [TrieThread.toGo, traverseMeasure, weight, wf.depth_eq (nodeAt_nil s.trie)]
    | visiting st =>
      exact (traverseVisit_outcome ops wf hplace hheld).bind False.elim fun s' r h => h
    | returned data => exact ⟨data, rfl⟩

/-! ## What a step leaves of the other threads -/

section Others

variable {held : Finset Nat}

theorem Stacked.extend {stack : List Nat} (h : Stacked t stack) (e : Extends t t') :
    Stacked t' stack := by
  refine ⟨fun a ha => ?_, fun hroot => ?_⟩
  · obtain ⟨p, hp⟩ := h.1 a ha
    obtain ⟨r, hr⟩ := e.nodeAt hp
    exact ⟨_, hr⟩
  · rw [e.root] at hroot ⊢
    exact h.2 hroot

/-- The mutexes that a thread has are of nodes in the tree. -/
theorem held_nodeAt (hplace : thread.InPlace t) {a : Nat} (ha : a ∈ thread.held t.root) :
    ∃ p, t.nodeAt p = some a := by
  cases thread with
  | insert key value stage =>
    cases stage with
    | entered | returned => exact absurd ha (Finset.notMem_empty a)
    | holding c p kc =>
      obtain ⟨-, h⟩ := hplace
      rcases Finset.mem_insert.mp ha with rfl | ha
      · exact ⟨_, h.cursor⟩
      · rw [Finset.mem_singleton.mp ha]
        by_cases h0 : kc.toNat = 0
        · exact ⟨_, h.top h0 ▸ h.cursor⟩
        · exact ⟨_, h.parent (Nat.pos_of_ne_zero h0)⟩
    | descending c p kc => exact ⟨_, Finset.mem_singleton.mp ha ▸ hplace.2.parent⟩
  | lookup key stage => cases stage <;> exact absurd ha (Finset.notMem_empty a)
  | traverse keep visit data stage =>
    cases stage with
    | entered | returned => exact absurd ha (Finset.notMem_empty a)
    | visiting st =>
      simp only [TrieThread.held] at ha
      split at ha
      · exact ⟨[], by rw [Finset.mem_singleton.mp ha, nodeAt_nil]⟩
      · exact absurd ha (Finset.notMem_empty a)

/-- **A thread keeps its place when others move.** -/
theorem Effect.inPlace (e : Effect held t t') (wf : t.Wf) (hplace : thread.InPlace t)
    (hdisj : Disjoint (thread.held t.root) held) : thread.InPlace t' := by
  rw [Finset.disjoint_left] at hdisj
  cases thread with
  | insert key value stage =>
    refine ⟨e.keySize.symm ▸ hplace.1, ?_⟩
    cases stage with
    | entered | returned => trivial
    | holding c p kc =>
      exact e.placed wf hplace.2 (hdisj (Finset.mem_insert_self c {p}))
        (hdisj (Finset.mem_insert_of_mem (Finset.mem_singleton_self p)))
    | descending c p kc => exact e.leaving wf hplace.2 (hdisj (Finset.mem_singleton_self p))
  | lookup key stage =>
    cases stage with
    | entered | returned =>
      show ValidKey t'.keySize key
      rw [e.keySize]
      exact hplace
    | visiting st => exact ⟨e.keySize.symm ▸ hplace.1, hplace.2.extend e.toExtends⟩
  | traverse keep visit data stage =>
    cases stage with
    | entered | returned => trivial
    | visiting st => exact Stacked.extend hplace e.toExtends

/-- Nobody else changes the answer to a call. -/
theorem Effect.answer (e : Effect held t t') (hplace : thread.InPlace t) :
    thread.answer t' = thread.answer t := by
  cases thread with
  | insert key value stage => cases stage <;> rfl
  | traverse keep visit data stage => cases stage <;> rfl
  | lookup key stage =>
    cases stage with
    | entered | returned => rfl
    | visiting st =>
      obtain ⟨-, h⟩ := hplace
      simp only [TrieThread.answer]
      cases hc : st.treeCursor with
      | none => rfl
      | some a =>
        by_cases hl : 0 < (t.node a).suffixStart
        · obtain ⟨⟨p, hp⟩, -⟩ := h.leaf a hc hl
          obtain ⟨r, -, hl', hsuffix, hvalue⟩ := e.leaf p a hp hl
          simp only [if_pos hl, if_pos hl', hsuffix, hvalue]
        · obtain ⟨-, hin⟩ := e.inner _ a (h.inner a hc hl) hl
          simp only [if_neg hl, if_neg hin]

/-- Nobody else makes the way longer. -/
theorem Effect.toGo_le (e : Effect held t t') (wf : t.Wf) (hplace : thread.InPlace t) :
    thread.toGo t' ≤ thread.toGo t := by
  cases thread with
  | insert key value stage => exact Nat.le_of_eq (congrArg stage.toGo e.keySize)
  | lookup key stage =>
    cases stage with
    | entered => exact Nat.le_of_eq (congrArg (· + 3) e.keySize)
    | returned => exact Nat.le_refl _
    | visiting st =>
      exact Nat.succ_le_succ
        ((lookup_reads hplace.1.1).extend t t' st wf e.wf e.toExtends ⟨rfl, hplace.2⟩).2
  | traverse keep visit data stage =>
    cases stage with
    | entered => exact Nat.le_of_eq (congrArg (fun n => 17 ^ (n + 1) + 2) e.keySize)
    | returned => exact Nat.le_refl _
    | visiting st =>
      refine Nat.succ_le_succ (List.sum_le_sum fun a ha => ?_)
      obtain ⟨p, hp⟩ := hplace.1 a ha
      exact weight_le wf e.wf e.toExtends hp

end Others

/-! ## All threads -/

/-- **The invariant of threads on one trie.** -/
structure Sound (s : TrieThreads ρ σ δ) : Prop where
  wf : s.shared.trie.Wf
  place : ∀ th ∈ s.locals, th.InPlace s.shared.trie
  locks : Parties.Owned (fun th => TrieThread.held s.shared.trie.root th) s.shared.locked s.locals

namespace Sound

variable {s s' : TrieThreads ρ σ δ} {i : Nat}

theorem allocated (h : Sound s) : ∀ a ∈ s.shared.locked, a < s.shared.trie.heap.next := by
  intro a ha
  obtain ⟨th, hth, hheld⟩ := h.locks.mem_iff.mp ha
  obtain ⟨p, hp⟩ := held_nodeAt (h.place th hth) hheld
  exact h.wf.allocated p a hp

theorem outcome (h : Sound s) (ops : TrieValue ρ σ) {th : TrieThread ρ δ} (hth : th ∈ s.locals) :
    Outcome s.shared.locked (th.awaits s.shared.trie) th.Returned (Advances ops th s.shared)
      (th.advance ops s.shared) :=
  advance_outcome ops h.wf (h.place th hth) (h.locks.subset hth) h.allocated

theorem advances (h : Sound s) {th th' : TrieThread ρ δ} {sh : SharedTrie ρ σ}
    (hth : th ∈ s.locals) (hadv : th.advance ops s.shared = .ok (sh, th')) :
    Advances ops th s.shared sh th' := by
  have ha := h.outcome ops hth
  rwa [hadv] at ha

/-- **A step keeps the invariant.** -/
theorem step (h : Sound s) (hstep : s.step (TrieThread.advance ops) i = some s') :
    Sound s' ∧ (s.locals[i]? = none ∧ s' = s ∨ ∃ th th', s.locals[i]? = some th ∧
      s'.locals = s.locals.set i th' ∧ Advances ops th s.shared s'.shared th') := by
  obtain ⟨hnone, rfl⟩ | ⟨th, sh, th', hth, hadv, rfl⟩ := Parties.step_cases hstep
  · exact ⟨h, .inl ⟨hnone, rfl⟩⟩
  · have ha := h.advances (Parties.mem_of_get hth) hadv
    obtain ⟨-, hrest⟩ := (Parties.forall_locals hth).mp h.place
    refine ⟨⟨ha.effect.wf, ?_, ?_⟩, .inr ⟨th, th', hth, rfl, ha⟩⟩
    · refine (Parties.forall_set_others hth th').mpr ⟨ha.place, fun x hx => ?_⟩
      exact ha.effect.inPlace h.wf (hrest x hx) (h.locks.disjoint hth x hx)
    · show Parties.Owned (fun th => TrieThread.held sh.trie.root th) sh.locked _
      rw [ha.effect.root]
      exact h.locks.exchange hth ha.locks

theorem step_extends (h : Sound s) (hstep : s.step (TrieThread.advance ops) i = some s') :
    Extends s.shared.trie s'.shared.trie := by
  obtain ⟨-, ⟨-, rfl⟩ | ⟨th, th', -, -, ha⟩⟩ := h.step hstep
  · exact Extends.refl _
  · exact ha.effect.toExtends

end Sound

end HandleTrie

end AttentionBroker
