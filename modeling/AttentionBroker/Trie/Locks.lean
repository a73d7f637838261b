import AttentionBroker.Infra.Mutex
import AttentionBroker.Trie.Canonical

/-!
# The mutexes of the trie

The three operations again, with their calls on `trie_node_mutex`. Without these calls they are
the operations of `Trie.Basic` (`insertLocking_erase` and the two like it).

`insert` holds the node it is at and, below the root, the node above it. `lookup` releases a node
before it locks the next one. `traverse` holds the root, if it is told to, and the node it is at.
`locks_disciplined` says that none of them locks a node twice or upwards, or forgets a lock.
-/

namespace AttentionBroker.HandleTrie

open Infra

variable {ρ σ δ : Type}

/-- The calls of an operation so far. -/
abbrev Calls (ρ : Type) := List (MutexCall (HandleTrie ρ) Nat)

/-! ## The operations with their mutexes -/

/-- `insertBody`, with the calls on the mutexes. -/
def insertLockingBody (ops : TrieValue ρ σ) (key : Key) (value : ρ) :
    InsertState ρ σ × Calls ρ →
      Except Fault ((InsertState ρ σ × Calls ρ) ⊕ ((ρ × HandleTrie ρ × σ) × Calls ρ))
  | (st, calls) => do
    let t := st.trie
    let cursor := t.node st.treeCursor
    let k ← charAt key st.keyCursor.toNat
    let c := TLB k
    match cursor.children c with
    | none =>
      if 0 < cursor.suffixStart then
        let cKeyPred := TLB (← charAt key ((st.keyCursor.toNat : Int) - 1))
        if k = (← charAt cursor.suffix st.keyCursor.toNat) then
          let child := t.heap.next
          let t := t.newNode TrieNode.new
          -- the lock of the new node takes the place of the one of `parent`
          let calls := calls ++ [.lock t child]
          let t := ((t.link child c st.treeCursor).push st.treeCursor).link st.parent cKeyPred child
          let calls := calls ++ [.unlock st.parent]
          .ok (.inl ({ st with trie := t, parent := child, keyCursor := st.keyCursor + 1 }, calls))
        else
          let child := t.heap.next
          let t := t.newNode (newLeaf key value st.keyCursor)
          let cTreeCursor := TLB (← charAt cursor.suffix cursor.suffixStart.toNat)
          let t := t.push st.treeCursor
          let split := t.heap.next
          let t := ((t.newNode TrieNode.new).link split c child).link split cTreeCursor
            st.treeCursor
          let t := t.link st.parent cKeyPred split
          let calls := calls ++ [.unlock st.parent]
          let calls :=
            if st.treeCursor ≠ st.parent then calls ++ [.unlock st.treeCursor] else calls
          .ok (.inr ((value, t, st.store), calls))
      else
        let child := t.heap.next
        let t := t.newNode (newLeaf key value st.keyCursor)
        let t := t.link st.treeCursor c child
        let calls := calls ++ [.unlock st.parent]
        let calls :=
          if st.treeCursor ≠ st.parent then calls ++ [.unlock st.treeCursor] else calls
        .ok (.inr ((value, t, st.store), calls))
    | some a =>
      let calls := if st.treeCursor ≠ st.parent then calls ++ [.unlock st.parent] else calls
      let st := { st with parent := st.treeCursor, treeCursor := a }
      let calls := calls ++ [.lock t a]
      let cursor := t.node a
      if 0 < cursor.suffixStart then
        if ← matchFrom key cursor.suffix st.keyCursor.toNat
            (key.length - st.keyCursor.toNat) then
          match cursor.value with
          | none => .error .nullPointer
          | some v =>
            let store := ops.delete value (ops.merge v value st.store)
            let calls := if st.treeCursor ≠ st.parent then calls ++ [.unlock st.parent] else calls
            let calls := calls ++ [.unlock st.treeCursor]
            .ok (.inr ((v, t, store), calls))
        else .ok (.inl ({ st with keyCursor := st.keyCursor + 1 }, calls))
      else .ok (.inl ({ st with keyCursor := st.keyCursor + 1 }, calls))

/-- `HandleTrie::insert`, with the calls on the mutexes. -/
def insertLocking (ops : TrieValue ρ σ) (t : HandleTrie ρ) (key : Key) (value : ρ) (store : σ) :
    Except Fault ((ρ × HandleTrie ρ × σ) × Calls ρ) := do
  t.checkSize key
  loop .diverges (insertLockingBody ops key value) (t.heap.next + loopBound)
    ({ trie := t, store := store, treeCursor := t.root, parent := t.root, keyCursor := 0 },
      [.lock t t.root])

/-- `lookupBody`, with the calls on the mutexes. -/
def lookupLockingBody (t : HandleTrie ρ) (key : Key) :
    LookupState × Calls ρ → Except Fault ((LookupState × Calls ρ) ⊕ (Option ρ × Calls ρ))
  | (st, calls) =>
    match st.treeCursor with
    | none => .ok (.inr (none, calls))
    | some a => do
      let cursor := t.node a
      if 0 < cursor.suffixStart then
        let value := if ← matchFrom key cursor.suffix st.keyCursor.toNat
            (key.length - st.keyCursor.toNat) then cursor.value else none
        .ok (.inr (value, calls ++ [.unlock a]))
      else
        let c := TLB (← charAt key st.keyCursor.toNat)
        let child := cursor.children c
        let calls := calls ++ [.unlock a]
        let calls :=
          match child with
          | some b => calls ++ [.lock t b]
          | none => calls
        .ok (.inl ({ treeCursor := child, keyCursor := st.keyCursor + 1 }, calls))

/-- `HandleTrie::lookup`, with the calls on the mutexes. -/
def lookupLocking (t : HandleTrie ρ) (key : Key) : Except Fault (Option ρ × Calls ρ) := do
  t.checkSize key
  loop .diverges (lookupLockingBody t key) (t.heap.next + loopBound)
    ({ treeCursor := some t.root, keyCursor := 0 }, [.lock t t.root])

/-- `traverseBody`, with the calls on the mutexes. -/
def traverseLockingBody (t : HandleTrie ρ) (keepRootLocked : Bool)
    (visit : TrieNode ρ → δ → Except Fault (Bool × δ)) :
    TraverseState δ × Calls ρ →
      Except Fault ((TraverseState δ × Calls ρ) ⊕ (δ × Calls ρ))
  | (st, calls) =>
    match st.nodeStack with
    | [] =>
      let calls := if keepRootLocked then calls ++ [.unlock t.root] else calls
      .ok (.inr (st.data, calls))
    | a :: stack => do
      let calls := calls ++ [.lock t a]
      let cursor := t.node a
      if 0 < cursor.suffixStart then
        let (stop, data) ← visit cursor st.data
        if stop then
          let calls := if keepRootLocked ∧ t.root ≠ a then calls ++ [.unlock t.root] else calls
          .ok (.inr (data, calls ++ [.unlock a]))
        else
          let calls := if ¬ keepRootLocked ∨ a ≠ t.root then calls ++ [.unlock a] else calls
          .ok (.inl ({ nodeStack := stack, data := data }, calls))
      else
        let calls := if ¬ keepRootLocked ∨ a ≠ t.root then calls ++ [.unlock a] else calls
        .ok (.inl ({ st with nodeStack := pushChildren cursor stack }, calls))

/-- `HandleTrie::traverse`, with the calls on the mutexes. -/
def traverseLocking (t : HandleTrie ρ) (keepRootLocked : Bool)
    (visit : TrieNode ρ → δ → Except Fault (Bool × δ)) (data : δ) :
    Except Fault (δ × Calls ρ) :=
  loop .diverges (traverseLockingBody t keepRootLocked visit) (t.heap.next + 2)
    ({ nodeStack := [t.root], data := data }, [])

/-! ## Without the mutexes -/

theorem insertLockingBody_erase (ops : TrieValue ρ σ) (key : Key) (value : ρ)
    (s : InsertState ρ σ × Calls ρ) : insertBody ops key value s.1
      = (insertLockingBody ops key value s).map (Sum.map Prod.fst Prod.fst) := by
  obtain ⟨st, calls⟩ := s
  unfold insertBody insertLockingBody
  simp only [bind, Except.bind]
  rcases charAt key st.keyCursor.toNat with e | k
  · rfl
  · simp only []
    rcases (st.trie.node st.treeCursor).children (TLB k) with _ | a
    · by_cases hl : 0 < (st.trie.node st.treeCursor).suffixStart
      · simp only [if_pos hl]
        rcases charAt key ((st.keyCursor.toNat : Int) - 1) with e | pred
        · rfl
        · rcases charAt (st.trie.node st.treeCursor).suffix st.keyCursor.toNat with e | d
          · rfl
          · by_cases hd : k = d
            · simp only [if_pos hd]
              rfl
            · simp only [if_neg hd]
              rcases charAt (st.trie.node st.treeCursor).suffix
                (st.trie.node st.treeCursor).suffixStart.toNat with e | x <;> rfl
      · simp only [if_neg hl]
        rfl
    · by_cases hl : 0 < (st.trie.node a).suffixStart
      · simp only [if_pos hl]
        rcases matchFrom key (st.trie.node a).suffix st.keyCursor.toNat
          (key.length - st.keyCursor.toNat) with e | same
        · rfl
        · cases same
          · rfl
          · simp only [if_true]
            rcases (st.trie.node a).value with _ | v <;> rfl
      · simp only [if_neg hl]
        rfl

theorem insertLocking_erase (ops : TrieValue ρ σ) (t : HandleTrie ρ) (key : Key) (value : ρ)
    (store : σ) : t.insert ops key value store
      = (t.insertLocking ops key value store).map Prod.fst := by
  unfold insert insertLocking
  rcases t.checkSize key with e | -
  · rfl
  · exact loop_map (insertLockingBody_erase ops key value) _ (_, [.lock t t.root])

theorem lookupLockingBody_erase (t : HandleTrie ρ) (key : Key) (s : LookupState × Calls ρ) :
    lookupBody t key s.1 = (lookupLockingBody t key s).map (Sum.map Prod.fst Prod.fst) := by
  obtain ⟨st, calls⟩ := s
  unfold lookupBody lookupLockingBody
  simp only [bind, Except.bind]
  rcases st.treeCursor with _ | a
  · rfl
  · simp only []
    by_cases hl : 0 < (t.node a).suffixStart
    · simp only [if_pos hl]
      rcases matchFrom key (t.node a).suffix st.keyCursor.toNat
        (key.length - st.keyCursor.toNat) with e | same
      · rfl
      · cases same <;> rfl
    · simp only [if_neg hl]
      rcases charAt key st.keyCursor.toNat with e | k <;> rfl

theorem lookupLocking_erase (t : HandleTrie ρ) (key : Key) :
    t.lookup key = (t.lookupLocking key).map Prod.fst := by
  unfold lookup lookupLocking
  rcases t.checkSize key with e | -
  · rfl
  · exact loop_map (lookupLockingBody_erase t key) _ (_, [.lock t t.root])

theorem traverseLockingBody_erase (t : HandleTrie ρ) (keepRootLocked : Bool)
    (visit : TrieNode ρ → δ → Except Fault (Bool × δ)) (s : TraverseState δ × Calls ρ) :
    traverseBody t visit s.1
      = (traverseLockingBody t keepRootLocked visit s).map (Sum.map Prod.fst Prod.fst) := by
  obtain ⟨⟨stack, data⟩, calls⟩ := s
  unfold traverseBody traverseLockingBody
  simp only [bind, Except.bind]
  rcases stack with _ | ⟨a, stack⟩
  · rfl
  · simp only []
    by_cases hl : 0 < (t.node a).suffixStart
    · simp only [if_pos hl]
      rcases visit (t.node a) data with e | ⟨stop, data'⟩
      · rfl
      · cases stop <;> rfl
    · simp only [if_neg hl]
      rfl

theorem traverseLocking_erase (t : HandleTrie ρ) (keepRootLocked : Bool)
    (visit : TrieNode ρ → δ → Except Fault (Bool × δ)) (data : δ) :
    t.traverse keepRootLocked visit data
      = (t.traverseLocking keepRootLocked visit data).map Prod.fst :=
  loop_map (traverseLockingBody_erase t keepRootLocked visit) _ (_, [])

/-! ## The discipline -/

/-- `a` is a proper descendant of `h`. -/
def Below (t : HandleTrie ρ) (h a : Nat) : Prop := ∃ p, p ≠ [] ∧ walk t.kids h p = some a

/-- `a` is the newest node, made since `t₀`, and not linked to the trie yet. -/
def Unlinked (t₀ t : HandleTrie ρ) (a : Nat) : Prop :=
  t₀.heap.next ≤ a ∧ a + 1 = t.heap.next ∧ ∀ p, t.nodeAt p ≠ some a

/-- The locks an operation may take: only downwards, or on a node that it has just made. -/
def MayLock (t₀ t : HandleTrie ρ) (held : Finset Nat) (a : Nat) : Prop :=
  (∀ h ∈ held, t.Below h a) ∨ Unlinked t₀ t a

/-- An operation that returns keeps the discipline and holds no lock. -/
def Released {α : Type} (t₀ : HandleTrie ρ) (o : Except Fault (α × Calls ρ)) : Prop :=
  ∀ r calls, o = .ok (r, calls) → Disciplined (MayLock t₀) calls ∅

variable {t t₀ : HandleTrie ρ} {calls : Calls ρ} {a : Nat} {key : Key}

theorem Released.error {α : Type} {e : Fault} : Released (α := α) t₀ (.error e) :=
  fun _ _ h => by cases h

theorem Released.ok {α : Type} {r : α} (h : Disciplined (MayLock t₀) calls ∅) :
    Released t₀ (.ok (r, calls)) := by
  rintro _ _ ⟨⟩
  exact h

/-- Without locks any lock may be taken. -/
theorem MayLock.first : MayLock t₀ t ∅ a := .inl fun h hh => absurd hh (Finset.notMem_empty h)

/-! ## lookup -/

theorem lookupLockingBody_keeps (s : LookupState × Calls ρ)
    (h : Disciplined (MayLock t) s.2 s.1.treeCursor.toFinset) :
    Keeps (fun s => Disciplined (MayLock t) s.2 s.1.treeCursor.toFinset) (Released t)
      (lookupLockingBody t key s) := by
  obtain ⟨⟨cursor, kc⟩, calls⟩ := s
  unfold lookupLockingBody
  simp only [bind, Except.bind]
  cases cursor with
  | none => exact Released.ok h
  | some a =>
    have hfree : Disciplined (MayLock t) (calls ++ [.unlock a]) ∅ := h.unlock_last
    by_cases hl : 0 < (t.node a).suffixStart
    · simp only [if_pos hl]
      rcases matchFrom key (t.node a).suffix kc.toNat (key.length - kc.toNat) with e | same
      · exact Released.error
      · exact Released.ok hfree
    · simp only [if_neg hl]
      rcases charAt key kc.toNat with e | k
      · exact Released.error
      · show Disciplined (MayLock t) _ ((t.node a).children (TLB k)).toFinset
        cases (t.node a).children (TLB k) with
        | none => exact hfree
        | some b => exact hfree.lock_first MayLock.first

theorem lookupLocking_released (t : HandleTrie ρ) (key : Key) :
    Released t (t.lookupLocking key) := by
  unfold lookupLocking
  rcases t.checkSize key with e | -
  · exact Released.error
  · exact loop_keeps (fun s hs => lookupLockingBody_keeps s hs) Released.error _ _
      (Disciplined.nil.lock_first MayLock.first)

/-! ## traverse -/

/-- The locks between two iterations: none before the first, then that of the root if it is kept. -/
inductive Walking (t : HandleTrie ρ) (keepRootLocked : Bool) : TraverseState δ × Calls ρ → Prop
  | start {data : δ} : Walking t keepRootLocked ({ nodeStack := [t.root], data := data }, [])
  | below {stack : List Nat} {data : δ} {calls : Calls ρ}
      (hcalls : Disciplined (MayLock t) calls (if keepRootLocked then {t.root} else ∅))
      (hstack : ∀ a ∈ stack, t.Below t.root a) :
      Walking t keepRootLocked ({ nodeStack := stack, data := data }, calls)

theorem Wf.below_ne (wf : t.Wf) (h : t.Below t.root a) : a ≠ t.root := by
  obtain ⟨p, hp, ha⟩ := h
  rintro rfl
  exact hp (wf.tree p [] t.root ha rfl)

theorem Below.trans {b c : Nat} (h : t.Below a b) (h' : t.Below b c) : t.Below a c := by
  obtain ⟨p, hp, hb⟩ := h
  obtain ⟨q, -, hc⟩ := h'
  exact ⟨p ++ q, by simp [hp], by rw [walk_append, hb, Option.bind_some, hc]⟩

theorem below_kid {b : Nat} {d : Slot} (hb : t.kids a d = some b) : t.Below a b :=
  ⟨[d], by simp, by rw [walk_cons, hb]; rfl⟩

/-- What is pushed at an internal node is below it. -/
theorem mem_pushChildren {stack : List Nat} {x : Nat}
    (hx : x ∈ pushChildren (t.node a) stack) : t.Below a x ∨ x ∈ stack := by
  rw [pushChildren_eq, List.mem_append, List.mem_filterMap] at hx
  exact hx.imp_left fun ⟨_, _, hc⟩ => below_kid hc

/-- The locks after a node that is not the root has been popped and locked. -/
theorem Walking.lock {keepRootLocked : Bool} (hne : a ≠ t.root) (hbelow : t.Below t.root a)
    (h : Disciplined (MayLock t) calls (if keepRootLocked then {t.root} else ∅)) :
    Disciplined (MayLock t) (calls ++ [.lock t a] ++ [.unlock a])
        (if keepRootLocked then {t.root} else ∅) ∧
      Disciplined (MayLock t) ((if keepRootLocked ∧ t.root ≠ a
        then calls ++ [.lock t a] ++ [.unlock t.root] else calls ++ [.lock t a]) ++ [.unlock a]) ∅ := by
  cases keepRootLocked with
  | false =>
    have hheld : Disciplined (MayLock t) (calls ++ [.lock t a]) {a} := h.lock_first MayLock.first
    simpa using hheld.unlock_last
  | true =>
    have hheld : Disciplined (MayLock t) (calls ++ [.lock t a]) {a, t.root} :=
      h.lock (by simpa using hne) (.inl fun x hx => (Finset.mem_singleton.mp hx).symm ▸ hbelow)
    simp only [hne.symm, ne_eq, not_false_eq_true, and_self, if_true]
    exact ⟨hheld.unlock_left hne, (hheld.unlock_right hne).unlock_last⟩

theorem traverseLockingBody_keeps (wf : t.Wf) (keepRootLocked : Bool)
    (visit : TrieNode ρ → δ → Except Fault (Bool × δ)) (s : TraverseState δ × Calls ρ)
    (h : Walking t keepRootLocked s) : Keeps (Walking t keepRootLocked) (Released t)
      (traverseLockingBody t keepRootLocked visit s) := by
  unfold traverseLockingBody
  simp only [bind, Except.bind]
  cases h with
  | start =>
    have hroot : Disciplined (MayLock t) ([] ++ [.lock t t.root]) {t.root} :=
      Disciplined.nil.lock_first MayLock.first
    simp only [if_neg wf.root_inner]
    refine Walking.below ?_ fun x hx => (mem_pushChildren hx).resolve_right List.not_mem_nil
    cases keepRootLocked with
    | false => simpa using hroot.unlock_last
    | true => simpa using hroot
  | @below stack data calls hcalls hstack =>
    cases stack with
    | nil =>
      refine Released.ok ?_
      cases keepRootLocked with
      | false => exact hcalls
      | true => exact hcalls.unlock_last
    | cons a stack =>
      have hbelow := hstack a List.mem_cons_self
      have hne := wf.below_ne hbelow
      have hrest : ∀ x ∈ stack, t.Below t.root x := fun x hx => hstack x (List.mem_cons_of_mem _ hx)
      obtain ⟨hnext, hstop⟩ := Walking.lock hne hbelow hcalls
      simp only [if_pos (Or.inr hne : ¬ keepRootLocked = true ∨ a ≠ t.root)]
      by_cases hl : 0 < (t.node a).suffixStart
      · simp only [if_pos hl]
        rcases visit (t.node a) data with e | ⟨stop, data'⟩
        · exact Released.error
        · cases stop with
          | true => exact Released.ok hstop
          | false => exact Walking.below hnext hrest
      · simp only [if_neg hl]
        refine Walking.below hnext fun x hx => ?_
        rcases mem_pushChildren hx with hx | hx
        · exact hbelow.trans hx
        · exact hrest x hx

theorem traverseLocking_released (wf : t.Wf) (keepRootLocked : Bool)
    (visit : TrieNode ρ → δ → Except Fault (Bool × δ)) (data : δ) :
    Released t (t.traverseLocking keepRootLocked visit data) :=
  loop_keeps (fun s hs => traverseLockingBody_keeps wf keepRootLocked visit s hs) Released.error _ _
    Walking.start

/-! ## insert -/

/-- A node that is not linked yet is on no path. -/
theorem Laid.nodeAt_newNode {Fit : TrieNode ρ → List Slot → Prop} (l : t.Laid Fit) (n : TrieNode ρ)
    (p : List Slot) : (t.newNode n).nodeAt p = t.nodeAt p := by
  induction p using List.reverseRecOn with
  | nil => rfl
  | append_singleton p c ih =>
    rw [nodeAt_snoc, nodeAt_snoc, ih]
    refine Option.bind_congr fun a ha => ?_
    unfold kids
    rw [node_newNode_ne (Nat.ne_of_lt (l.allocated p a ha))]

theorem Laid.unlinked {Fit : TrieNode ρ → List Slot → Prop} (l : t.Laid Fit)
    (hgrown : t₀.heap.next ≤ t.heap.next) (n : TrieNode ρ) :
    Unlinked t₀ (t.newNode n) t.heap.next := by
  refine ⟨hgrown, rfl, fun p hp => ?_⟩
  rw [l.nodeAt_newNode] at hp
  exact absurd (l.allocated p _ hp) (Nat.lt_irrefl _)

theorem Laid.kid_ne {Fit : TrieNode ρ → List Slot → Prop} (l : t.Laid Fit) {q : List Slot} {b : Nat}
    {c : Slot} (ha : t.nodeAt q = some a) (hc : t.kids a c = some b) : b ≠ a := by
  rintro rfl
  have hself : q ++ [c] = q := l.tree _ _ _ (nodeAt_kid ha hc) ha
  simp at hself

/-- The locks between two iterations: those of `parent` and of the cursor, which may be one. -/
structure Holding (t₀ : HandleTrie ρ) (s : InsertState ρ σ × Calls ρ) : Prop where
  grown : t₀.heap.next ≤ s.1.trie.heap.next
  calls : Disciplined (MayLock t₀) s.2 {s.1.parent, s.1.treeCursor}

section Insert

variable {ops : TrieValue ρ σ} {within : Prop} {value : ρ} {s₀ : σ} {st : InsertState ρ σ} {m : Nat}
  {q : List Slot}

/-- The locks of one iteration, at any node that `insert` has reached. -/
theorem Reached.locks (h : Reached t₀ within key s₀ q st) (hh : Holding t₀ (st, calls)) :
    Keeps (Holding t₀) (Released t₀) (insertLockingBody ops key value (st, calls)) := by
  obtain ⟨hgrown, hheld⟩ := hh
  unfold insertLockingBody
  simp only [bind, Except.bind]
  rcases charAt key st.keyCursor.toNat with e | k
  · exact Released.error
  · simp only []
    cases hc : (st.trie.node st.treeCursor).children (TLB k) with
    | none =>
      by_cases hl : 0 < (st.trie.node st.treeCursor).suffixStart
      · simp only [if_pos hl]
        rcases charAt key ((st.keyCursor.toNat : Int) - 1) with e | pred
        · exact Released.error
        · rcases charAt (st.trie.node st.treeCursor).suffix st.keyCursor.toNat with e | d
          · exact Released.error
          · by_cases hd : k = d
            -- the push
            · simp only [if_pos hd]
              obtain ⟨p, c₀, hq, hpar, hkid, -⟩ := h.at_leaf hl
              have hne : st.parent ≠ st.treeCursor := (h.loose.kid_ne hpar hkid).symm
              have hnew : st.trie.heap.next ∉ ({st.parent, st.treeCursor} : Finset Nat) := by
                have hp := h.loose.allocated p _ hpar
                have hq := h.loose.allocated q _ h.at_cursor
                simp only [Finset.mem_insert, Finset.mem_singleton]
                omega
              exact ⟨Nat.le_succ_of_le hgrown,
                hheld.lock_replace hne hnew (.inr (h.loose.unlinked hgrown TrieNode.new))⟩
            -- the split
            · simp only [if_neg hd]
              rcases charAt (st.trie.node st.treeCursor).suffix
                (st.trie.node st.treeCursor).suffixStart.toNat with e | x
              · exact Released.error
              · exact Released.ok hheld.unlock_both
      · simp only [if_neg hl]
        exact Released.ok hheld.unlock_both
    | some a =>
      have hkid : st.trie.kids st.treeCursor (TLB k) = some a := hc
      have hne : st.treeCursor ≠ a := (h.loose.kid_ne h.at_cursor hkid).symm
      have hboth := hheld.unlock_ne.lock (s := st.trie) (a := a)
        (by simpa using hne.symm)
        (.inl fun x hx => (Finset.mem_singleton.mp hx).symm ▸ below_kid hkid)
      rw [Finset.pair_comm] at hboth
      by_cases hl : 0 < (st.trie.node a).suffixStart
      · simp only [if_pos hl]
        rcases matchFrom key (st.trie.node a).suffix st.keyCursor.toNat
          (key.length - st.keyCursor.toNat) with e | same
        · exact Released.error
        · cases same with
          | false => exact ⟨hgrown, hboth⟩
          | true =>
            simp only [if_true]
            rcases (st.trie.node a).value with _ | v
            · exact Released.error
            · simp only [if_pos hne.symm]
              exact Released.ok (hboth.unlock_left hne).unlock_last
      · simp only [if_neg hl]
        exact ⟨hgrown, hboth⟩

theorem Going.reached (hg : Going t₀ within key s₀ m st) :
    (∃ within' q, Reached t₀ within' key s₀ q st) ∨ key.length < st.keyCursor.toNat := by
  cases hg with
  | descending h => exact .inl ⟨_, _, h⟩
  | atLeaf h => exact .inl ⟨_, _, h⟩
  | past hk => exact .inr hk
  | wrapped h => exact .inl ⟨_, _, h⟩

theorem Going.locks (hg : Going t₀ within key s₀ m st) (hh : Holding t₀ (st, calls)) :
    Keeps (Holding t₀) (Released t₀) (insertLockingBody ops key value (st, calls)) := by
  rcases hg.reached with ⟨within', q, h⟩ | hk
  · exact h.locks hh
  · have hbody : insertLockingBody ops key value (st, calls) = .error .outOfBounds := by
      unfold insertLockingBody
      simp only [charAt_past hk, bind, Except.bind]
    rw [hbody]
    exact Released.error

/-- The two invariants of the loop: where `insert` is, and what it holds there. -/
theorem insertLockingBody_keeps (l₀ : t₀.Loose t₀.keySize within) (hkey : key.length = t₀.keySize)
    (hw : within ∨ t₀.keySize = 255) (s : InsertState ρ σ × Calls ρ)
    (h : (∃ m, Going t₀ within key s₀ m s.1) ∧ Holding t₀ s) :
    Keeps (fun s => (∃ m, Going t₀ within key s₀ m s.1) ∧ Holding t₀ s) (Released t₀)
      (insertLockingBody ops key value s) := by
  obtain ⟨⟨m, hg⟩, hh⟩ := h
  have hiterates : Iterates ops t₀ within key value s₀ m (insertBody ops key value s.1) :=
    insertBody_iterates l₀ hkey hw hg
  have hlocks : Keeps (Holding t₀) (Released t₀) (insertLockingBody ops key value s) :=
    hg.locks hh
  rw [insertLockingBody_erase ops key value s] at hiterates
  rcases hrun : insertLockingBody ops key value s with e | (s' | r)
  · exact Released.error
  · rw [hrun] at hiterates hlocks
    obtain ⟨m', -, hg'⟩ := hiterates
    exact ⟨⟨m', hg'⟩, hlocks⟩
  · rw [hrun] at hlocks
    exact hlocks

end Insert

theorem insertLocking_released (ops : TrieValue ρ σ) (wf : t.Wf) (key : Key) (value : ρ) (s : σ) :
    Released t (t.insertLocking ops key value s) := by
  unfold insertLocking checkSize
  by_cases hkey : key.length = t.keySize
  · rw [if_neg (not_not.mpr hkey)]
    refine loop_keeps (fun s hs => insertLockingBody_keeps wf.loose hkey (.inl trivial) s hs)
      Released.error _ _ ⟨⟨_, Going.start wf.loose⟩, Nat.le_refl _, ?_⟩
    have hroot : Disciplined (MayLock t) ([] ++ [.lock t t.root]) {t.root} :=
      Disciplined.nil.lock_first MayLock.first
    simpa using hroot
  · rw [if_pos hkey]
    exact Released.error

/-! ## All three -/

/-- What an operation returns, it returns with its locks, and these keep the discipline. -/
theorem Released.of_erase {α : Type} {o : Except Fault α} {o' : Except Fault (α × Calls ρ)}
    (h : Released t o') (herase : o = o'.map Prod.fst) {r : α} (hr : o = .ok r) :
    ∃ calls, o' = .ok (r, calls) ∧ Disciplined (MayLock t) calls ∅ := by
  rcases o' with e | ⟨r', calls⟩
  · rw [herase] at hr
    cases hr
  · rw [herase] at hr
    cases hr
    exact ⟨calls, rfl, h _ _ rfl⟩

/--
**The lock discipline of the trie.**

In any trie that insertions of handles have led to, whatever the key, the value, the visit
function and the flag, an operation that returns has never locked a node that it held, has
unlocked only what it held, has taken a lock only on a proper descendant of every node it held or
on a node it had just made and not linked, and holds no lock.
-/
theorem locks_disciplined (ops : TrieValue ρ σ) {keySize : Nat} (h0 : 0 < keySize)
    (h1 : keySize ≤ 255) (entries : List (Key × ρ)) (hvalid : ∀ e ∈ entries, ValidKey keySize e.1)
    (s s' : σ) (hrun : (new keySize h0 h1).insertAll ops s entries = .ok (t, s')) :
    (∀ key value s₁ r, t.insert ops key value s₁ = .ok r →
      ∃ calls, t.insertLocking ops key value s₁ = .ok (r, calls) ∧
        Disciplined (MayLock t) calls ∅) ∧
    (∀ key r, t.lookup key = .ok r →
      ∃ calls, t.lookupLocking key = .ok (r, calls) ∧ Disciplined (MayLock t) calls ∅) ∧
    (∀ (keepRootLocked : Bool) (visit : TrieNode ρ → δ → Except Fault (Bool × δ)) (data r : δ),
      t.traverse keepRootLocked visit data = .ok r →
      ∃ calls, t.traverseLocking keepRootLocked visit data = .ok (r, calls) ∧
        Disciplined (MayLock t) calls ∅) := by
  obtain ⟨r, hr, ht⟩ := insertAll_tight ops entries (new keySize h0 h1) ∅ s new_tight hvalid
  obtain rfl : r = (t, s') := Except.ok.inj (hr.symm.trans hrun)
  have wf : t.Wf := ht.wf
  refine ⟨fun key value s₁ r hr => ?_, fun key r hr => ?_, fun keep visit data r hr => ?_⟩
  · exact (insertLocking_released ops wf key value s₁).of_erase
      (insertLocking_erase ops t key value s₁) hr
  · exact (lookupLocking_released t key).of_erase (lookupLocking_erase t key) hr
  · exact (traverseLocking_released wf keep visit data).of_erase
      (traverseLocking_erase t keep visit data) hr

/-- `"00"` and `"01"`, which share an internal node. -/
theorem locks_disciplined_two :
    ∃ (t : HandleTrie Nat) (s' : Nat → Nat),
      (new 2 (by decide) (by decide)).insertAll counterValue (fun _ => 1)
        [([48, 48], 0), ([48, 49], 1)] = .ok (t, s') ∧
      (∀ key value s₁ r, t.insert counterValue key value s₁ = .ok r →
        ∃ calls, t.insertLocking counterValue key value s₁ = .ok (r, calls) ∧
          Disciplined (MayLock t) calls ∅) ∧
      (∀ key r, t.lookup key = .ok r →
        ∃ calls, t.lookupLocking key = .ok (r, calls) ∧ Disciplined (MayLock t) calls ∅) ∧
      (∀ (keepRootLocked : Bool) (visit : TrieNode Nat → Nat → Except Fault (Bool × Nat))
        (data r : Nat), t.traverse keepRootLocked visit data = .ok r →
        ∃ calls, t.traverseLocking keepRootLocked visit data = .ok (r, calls) ∧
          Disciplined (MayLock t) calls ∅) :=
  ⟨_, _, rfl, locks_disciplined counterValue (by decide : 0 < 2) (by decide : 2 ≤ 255)
    [([48, 48], 0), ([48, 49], 1)] (by decide +kernel) (fun _ => 1) _ rfl⟩

end AttentionBroker.HandleTrie
