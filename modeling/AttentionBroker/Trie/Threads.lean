import Mathlib.Data.Finset.Basic
import AttentionBroker.Infra.Parties
import AttentionBroker.Trie.Shape

/-!
# Threads on one trie

Any number of threads call `insert`, `lookup` and `traverse` at the same time. The operations
are those of `Trie.Basic` with their calls on `trie_node_mutex`, cut where a thread may have to
wait: a step goes up to the next `lock` of a node that other threads can reach.

A thread reads and writes a node only while it has the mutex of the node, so that nobody comes
between the statements of a step. `Iterated.insertBody`, `Iterated.insertBody_of_arrive` and
`traverseBody_of_visit` say that the pieces of a call that nobody disturbs are the operation.
-/

namespace AttentionBroker

open Infra

/-- Why a thread cannot go on. -/
inductive Obstacle where
  /-- The mutex that it needs is locked. -/
  | waits
  /-- Its call has returned. -/
  | returned
  | fault (f : Fault)
deriving DecidableEq

/-- A trie, the store of its objects, and the nodes whose mutex is locked. -/
structure SharedTrie (ρ σ : Type) where
  trie : HandleTrie ρ
  store : σ
  locked : Finset Nat

namespace SharedTrie

variable {ρ σ : Type}

/-- `a->trie_node_mutex.lock()`. -/
def lock (s : SharedTrie ρ σ) (a : Nat) : Except Obstacle (SharedTrie ρ σ) :=
  if a ∈ s.locked then .error .waits else .ok { s with locked := insert a s.locked }

/-- `a->trie_node_mutex.unlock()`. -/
def unlock (s : SharedTrie ρ σ) (a : Nat) : SharedTrie ρ σ :=
  { s with locked := s.locked.erase a }

/-- Changes the trie. -/
def withTrie (s : SharedTrie ρ σ) (t : HandleTrie ρ) : SharedTrie ρ σ := { s with trie := t }

theorem lock_eq_ok {s s' : SharedTrie ρ σ} {a : Nat} :
    s.lock a = .ok s' ↔ a ∉ s.locked ∧ s' = { s with locked := insert a s.locked } := by
  unfold lock
  by_cases h : a ∈ s.locked
  · rw [if_pos h]
    exact ⟨nofun, fun h' => absurd h h'.1⟩
  · rw [if_neg h]
    exact ⟨fun h' => ⟨h, (Except.ok.inj h').symm⟩, fun h' => congrArg _ h'.2.symm⟩

end SharedTrie

/-- How far a call of `insert` is. -/
inductive InsertStage (ρ : Type) where
  /-- It has not locked the root yet. -/
  | entered
  /-- It is at the head of the loop. -/
  | holding (treeCursor parent : Nat) (keyCursor : UInt8)
  /-- It goes down to `treeCursor`, whose mutex it has not locked yet. -/
  | descending (treeCursor parent : Nat) (keyCursor : UInt8)
  | returned (value : ρ)

/-- How far a call of `lookup` or `traverse` is. -/
inductive ReaderStage (α β : Type) where
  | entered
  | visiting (st : α)
  | returned (result : β)

/-- A thread with its call. -/
inductive TrieThread (ρ δ : Type) where
  | insert (key : Key) (value : ρ) (stage : InsertStage ρ)
  | lookup (key : Key) (stage : ReaderStage HandleTrie.LookupState (Option ρ))
  | traverse (keepRootLocked : Bool) (visit : TrieNode ρ → δ → Bool × δ) (data : δ)
      (stage : ReaderStage (HandleTrie.TraverseState δ) δ)

namespace HandleTrie

variable {ρ σ δ : Type}

/-- The mutexes that the return of `insert` releases. -/
def unlockBoth (s : SharedTrie ρ σ) (treeCursor parent : Nat) : SharedTrie ρ σ :=
  let s := s.unlock parent
  if treeCursor ≠ parent then s.unlock treeCursor else s

/-- One iteration of the loop in `insert`, or its beginning up to the `lock` of the child. -/
def iterate (key : Key) (value : ρ) (treeCursor parent : Nat) (keyCursor : UInt8)
    (s : SharedTrie ρ σ) : Except Obstacle (SharedTrie ρ σ × InsertStage ρ) := do
  let t := s.trie
  let cursor := t.node treeCursor
  let k ← (charAt key keyCursor.toNat).mapError .fault
  let c := TLB k
  match cursor.children c with
  | none =>
    if 0 < cursor.suffixStart then
      let cKeyPred := TLB (← (charAt key ((keyCursor.toNat : Int) - 1)).mapError .fault)
      if k = (← (charAt cursor.suffix keyCursor.toNat).mapError .fault) then
        let child := t.heap.next
        let s ← (s.withTrie (t.newNode TrieNode.new)).lock child
        let t := ((s.trie.link child c treeCursor).push treeCursor).link parent cKeyPred child
        .ok ((s.withTrie t).unlock parent, .holding treeCursor child (keyCursor + 1))
      else
        let child := t.heap.next
        let t := t.newNode (newLeaf key value keyCursor)
        let cTreeCursor :=
          TLB (← (charAt cursor.suffix cursor.suffixStart.toNat).mapError .fault)
        let t := t.push treeCursor
        let split := t.heap.next
        let t := ((t.newNode TrieNode.new).link split c child).link split cTreeCursor treeCursor
        let t := t.link parent cKeyPred split
        .ok (unlockBoth (s.withTrie t) treeCursor parent, .returned value)
    else
      let child := t.heap.next
      let t := (t.newNode (newLeaf key value keyCursor)).link treeCursor c child
      .ok (unlockBoth (s.withTrie t) treeCursor parent, .returned value)
  | some a =>
    let s := if treeCursor ≠ parent then s.unlock parent else s
    .ok (s, .descending a treeCursor keyCursor)

/-- The rest of an iteration that goes down, from the `lock` of the child. -/
def arrive (ops : TrieValue ρ σ) (key : Key) (value : ρ) (treeCursor parent : Nat)
    (keyCursor : UInt8) (s : SharedTrie ρ σ) :
    Except Obstacle (SharedTrie ρ σ × InsertStage ρ) := do
  let s ← s.lock treeCursor
  let cursor := s.trie.node treeCursor
  if 0 < cursor.suffixStart then
    if ← (matchFrom key cursor.suffix keyCursor.toNat
        (key.length - keyCursor.toNat)).mapError .fault then
      match cursor.value with
      | none => .error (.fault .nullPointer)
      | some v =>
        let s := { s with store := ops.delete value (ops.merge v value s.store) }
        let s := if treeCursor ≠ parent then s.unlock parent else s
        .ok (s.unlock treeCursor, .returned v)
    else .ok (s, .holding treeCursor parent (keyCursor + 1))
  else .ok (s, .holding treeCursor parent (keyCursor + 1))

/-- The next step of `insert`. -/
def insertStep (ops : TrieValue ρ σ) (key : Key) (value : ρ) (s : SharedTrie ρ σ) :
    InsertStage ρ → Except Obstacle (SharedTrie ρ σ × InsertStage ρ)
  | .entered => do
    (s.trie.checkSize key).mapError .fault
    let s ← s.lock s.trie.root
    .ok (s, .holding s.trie.root s.trie.root 0)
  | .holding treeCursor parent keyCursor => iterate key value treeCursor parent keyCursor s
  | .descending treeCursor parent keyCursor => arrive ops key value treeCursor parent keyCursor s
  | .returned _ => .error .returned

/-- A pass of the loop in `lookup`: it locks a node, visits it and unlocks it. -/
def lookupVisit (key : Key) (st : LookupState) (s : SharedTrie ρ σ) :
    Except Obstacle (SharedTrie ρ σ × (LookupState ⊕ Option ρ)) :=
  match st.treeCursor with
  | none => do
    let r ← (lookupBody s.trie key st).mapError .fault
    .ok (s, r)
  | some a => do
    let s ← s.lock a
    let r ← (lookupBody s.trie key st).mapError .fault
    .ok (s.unlock a, r)

/-- A pass of the loop in `traverse`: it locks a node and visits it or pushes its children. -/
def traverseVisit (keepRootLocked : Bool) (visit : TrieNode ρ → δ → Bool × δ)
    (st : TraverseState δ) (s : SharedTrie ρ σ) :
    Except Obstacle (SharedTrie ρ σ × (TraverseState δ ⊕ δ)) :=
  match st.nodeStack with
  | [] => .ok (if keepRootLocked then s.unlock s.trie.root else s, .inr st.data)
  | a :: stack => do
    let s ← s.lock a
    let cursor := s.trie.node a
    let goOn := if ¬ keepRootLocked ∨ a ≠ s.trie.root then s.unlock a else s
    if 0 < cursor.suffixStart then
      let (stop, data) := visit cursor st.data
      if stop then
        let s := if keepRootLocked ∧ s.trie.root ≠ a then s.unlock s.trie.root else s
        .ok (s.unlock a, .inr data)
      else .ok (goOn, .inl { nodeStack := stack, data := data })
    else .ok (goOn, .inl { st with nodeStack := pushChildren cursor stack })

end HandleTrie

/-- The stage after a pass of the loop. -/
def ReaderStage.ofBody {α β : Type} : α ⊕ β → ReaderStage α β
  | .inl st => .visiting st
  | .inr result => .returned result

namespace TrieThread

variable {ρ σ δ : Type}

/-- The next step of a thread. -/
def advance (ops : TrieValue ρ σ) (thread : TrieThread ρ δ) (s : SharedTrie ρ σ) :
    Except Obstacle (SharedTrie ρ σ × TrieThread ρ δ) :=
  match thread with
  | insert key value stage => do
    let (s, stage) ← HandleTrie.insertStep ops key value s stage
    .ok (s, insert key value stage)
  | lookup key .entered => do
    (s.trie.checkSize key).mapError .fault
    .ok (s, lookup key (.visiting { treeCursor := some s.trie.root, keyCursor := 0 }))
  | lookup key (.visiting st) => do
    let (s, r) ← HandleTrie.lookupVisit key st s
    .ok (s, lookup key (.ofBody r))
  | traverse keepRootLocked visit data .entered =>
    .ok (s, traverse keepRootLocked visit data
      (.visiting { nodeStack := [s.trie.root], data := data }))
  | traverse keepRootLocked visit data (.visiting st) => do
    let (s, r) ← HandleTrie.traverseVisit keepRootLocked visit st s
    .ok (s, traverse keepRootLocked visit data (.ofBody r))
  | lookup _ (.returned _) | traverse _ _ _ (.returned _) => .error .returned

end TrieThread

/-- The threads and the trie that they share. -/
abbrev TrieThreads (ρ σ δ : Type) := Parties (SharedTrie ρ σ) (TrieThread ρ δ)

/-! ## The pieces of a call -/

namespace HandleTrie

variable {ρ σ δ : Type} {ops : TrieValue ρ σ} {key : Key} {value : ρ} {c p c' p' : Nat}
  {kc kc' : UInt8} {s s' s'' : SharedTrie ρ σ} {stage : InsertStage ρ} {a : Nat}

/-- Where the loop of `insert` is after an iteration. -/
def afterIteration (s : SharedTrie ρ σ) :
    InsertStage ρ → Option (InsertState ρ σ ⊕ (ρ × HandleTrie ρ × σ))
  | .holding treeCursor parent keyCursor => some (.inl
      { trie := s.trie, store := s.store, treeCursor := treeCursor, parent := parent
        keyCursor := keyCursor })
  | .returned v => some (.inr (v, s.trie, s.store))
  | _ => none

@[simp] theorem unlockBoth_trie : (unlockBoth s c p).trie = s.trie := by
  unfold unlockBoth
  split <;> rfl

@[simp] theorem unlockBoth_store : (unlockBoth s c p).store = s.store := by
  unfold unlockBoth
  split <;> rfl

/-- What an iteration of `insert` does up to the `lock` of a child. -/
inductive Iterated (key : Key) (value : ρ) (c p : Nat) (kc : UInt8) (s : SharedTrie ρ σ) :
    SharedTrie ρ σ → InsertStage ρ → Prop
  | down {k : UInt8} {a : Nat} (hk : charAt key kc.toNat = .ok k)
      (ha : s.trie.kids c (TLB k) = some a) :
      Iterated key value c p kc s (if c ≠ p then s.unlock p else s) (.descending a c kc)
  | attached {k : UInt8} (hk : charAt key kc.toNat = .ok k)
      (hc : s.trie.kids c (TLB k) = none) (hin : ¬ 0 < (s.trie.node c).suffixStart) :
      Iterated key value c p kc s
        (unlockBoth (s.withTrie ((s.trie.newNode (newLeaf key value kc)).link c (TLB k)
          s.trie.heap.next)) c p)
        (.returned value)
  | pushed {k pred : UInt8} (hk : charAt key kc.toNat = .ok k)
      (hc : s.trie.kids c (TLB k) = none) (hl : 0 < (s.trie.node c).suffixStart)
      (hpred : charAt key ((kc.toNat : Int) - 1) = .ok pred)
      (hsame : charAt (s.trie.node c).suffix kc.toNat = .ok k)
      (hfree : s.trie.heap.next ∉ s.locked) :
      Iterated key value c p kc s
        ({ s with
          trie := (((s.trie.newNode TrieNode.new).link s.trie.heap.next (TLB k) c).push c).link p
            (TLB pred) s.trie.heap.next
          locked := Insert.insert s.trie.heap.next s.locked }.unlock p)
        (.holding c s.trie.heap.next (kc + 1))
  | split {k pred d x : UInt8} (hk : charAt key kc.toNat = .ok k)
      (hc : s.trie.kids c (TLB k) = none) (hl : 0 < (s.trie.node c).suffixStart)
      (hpred : charAt key ((kc.toNat : Int) - 1) = .ok pred)
      (hd : charAt (s.trie.node c).suffix kc.toNat = .ok d) (hne : k ≠ d)
      (hx : charAt (s.trie.node c).suffix (s.trie.node c).suffixStart.toNat = .ok x) :
      Iterated key value c p kc s
        (unlockBoth (s.withTrie ((((((s.trie.newNode (newLeaf key value kc)).push c).newNode
          TrieNode.new).link (s.trie.heap.next + 1) (TLB k) s.trie.heap.next).link
            (s.trie.heap.next + 1) (TLB x) c).link p (TLB pred) (s.trie.heap.next + 1))) c p)
        (.returned value)

/-- **What an iteration of `insert` does.** -/
theorem iterate_eq_ok :
    iterate key value c p kc s = .ok (s', stage) ↔ Iterated key value c p kc s s' stage := by
  constructor
  · intro h
    obtain ⟨k, hk, h⟩ := bind_eq_ok.mp h
    rw [mapError_eq_ok] at hk
    cases hc : (s.trie.node c).children (TLB k) with
    | some a =>
      simp only [hc] at h
      obtain ⟨rfl, rfl⟩ := Prod.mk.inj (Except.ok.inj h)
      exact .down hk hc
    | none =>
      simp only [hc] at h
      by_cases hl : 0 < (s.trie.node c).suffixStart
      · rw [if_pos hl] at h
        obtain ⟨pred, hpred, h⟩ := bind_eq_ok.mp h
        obtain ⟨d, hd, h⟩ := bind_eq_ok.mp h
        rw [mapError_eq_ok] at hpred hd
        by_cases hkd : k = d
        · rw [if_pos hkd] at h
          obtain ⟨s₁, hs₁, h⟩ := bind_eq_ok.mp h
          obtain ⟨hfree, rfl⟩ := SharedTrie.lock_eq_ok.mp hs₁
          obtain ⟨rfl, rfl⟩ := Prod.mk.inj (Except.ok.inj h)
          exact .pushed hk hc hl hpred (hkd ▸ hd) hfree
        · rw [if_neg hkd] at h
          obtain ⟨x, hx, h⟩ := bind_eq_ok.mp h
          rw [mapError_eq_ok] at hx
          obtain ⟨rfl, rfl⟩ := Prod.mk.inj (Except.ok.inj h)
          exact .split hk hc hl hpred hd hkd hx
      · rw [if_neg hl] at h
        obtain ⟨rfl, rfl⟩ := Prod.mk.inj (Except.ok.inj h)
        exact .attached hk hc hl
  · intro h
    unfold iterate
    cases h with
    | down hk ha =>
      unfold kids at ha
      simp only [hk, Except.mapError, bind, Except.bind, ha]
    | attached hk hc hin =>
      unfold kids at hc
      simp only [hk, Except.mapError, bind, Except.bind, hc, if_neg hin]
    | pushed hk hc hl hpred hsame hfree =>
      unfold kids at hc
      simp only [hk, hpred, hsame, Except.mapError, bind, Except.bind, hc, if_pos hl, if_true]
      have hlock : (s.withTrie (s.trie.newNode TrieNode.new)).lock s.trie.heap.next = .ok _ :=
        SharedTrie.lock_eq_ok.mpr ⟨hfree, rfl⟩
      rw [hlock]
      rfl
    | split hk hc hl hpred hd hne hx =>
      unfold kids at hc
      simp only [hk, hpred, hd, hx, Except.mapError, bind, Except.bind, hc, if_pos hl,
        if_neg hne]
      rfl

/-- **An iteration of `insert` that does not go down is one piece.** -/
theorem Iterated.insertBody {r : InsertState ρ σ ⊕ (ρ × HandleTrie ρ × σ)}
    (h : Iterated key value c p kc s s' stage) (hr : afterIteration s' stage = some r) :
    HandleTrie.insertBody ops key value ⟨s.trie, s.store, c, p, kc⟩ = .ok r := by
  unfold HandleTrie.insertBody
  cases h with
  | down => cases hr
  | attached hk hc hin =>
    unfold kids at hc
    rw [← Option.some.inj hr]
    simp [hk, bind, Except.bind, hc, if_neg hin, SharedTrie.withTrie]
  | pushed hk hc hl hpred hsame hfree =>
    unfold kids at hc
    rw [← Option.some.inj hr]
    simp only [hk, hpred, hsame, bind, Except.bind, hc, if_pos hl, if_true]
    rfl
  | split hk hc hl hpred hd hne hx =>
    unfold kids at hc
    rw [← Option.some.inj hr]
    simp only [hk, hpred, hd, hx, bind, Except.bind, hc, if_pos hl, if_neg hne, unlockBoth_trie,
      unlockBoth_store]
    rfl

/-- **An iteration of `insert` that goes down is two pieces**, if the trie and the store do not
change between them. -/
theorem Iterated.insertBody_of_arrive {s₁ : SharedTrie ρ σ} {r : InsertState ρ σ ⊕ (ρ × HandleTrie ρ × σ)}
    (h : Iterated key value c p kc s s' (.descending c' p' kc'))
    (htrie : s₁.trie = s'.trie) (hstore : s₁.store = s'.store)
    (harrive : arrive ops key value c' p' kc' s₁ = .ok (s'', stage))
    (hr : afterIteration s'' stage = some r) :
    HandleTrie.insertBody ops key value ⟨s.trie, s.store, c, p, kc⟩ = .ok r := by
  obtain ⟨hk, hc⟩ := h
  unfold kids at hc
  have htrie : s₁.trie = s.trie := by rw [htrie]; split <;> rfl
  have hstore : s₁.store = s.store := by rw [hstore]; split <;> rfl
  obtain ⟨s₂, hs₂, harrive⟩ := bind_eq_ok.mp harrive
  obtain ⟨-, rfl⟩ := SharedTrie.lock_eq_ok.mp hs₂
  unfold HandleTrie.insertBody
  simp only [htrie, hstore] at harrive
  simp only [hk, bind, Except.bind, hc]
  by_cases hl : 0 < (s.trie.node c').suffixStart
  · rw [if_pos hl] at harrive ⊢
    obtain ⟨same, hsame, harrive⟩ := bind_eq_ok.mp harrive
    rw [mapError_eq_ok] at hsame
    simp only [hsame]
    cases same with
    | false =>
      obtain ⟨rfl, rfl⟩ := Prod.mk.inj (Except.ok.inj harrive)
      rw [← Option.some.inj hr]
      rfl
    | true =>
      cases hv : (s.trie.node c').value with
      | none =>
        simp only [hv] at harrive
        cases harrive
      | some v =>
        simp only [hv] at harrive
        obtain ⟨rfl, rfl⟩ := Prod.mk.inj (Except.ok.inj harrive)
        rw [← Option.some.inj hr]
        simp only [if_true]
        split <;> rfl
  · rw [if_neg hl] at harrive ⊢
    obtain ⟨rfl, rfl⟩ := Prod.mk.inj (Except.ok.inj harrive)
    rw [← Option.some.inj hr]

/-- **A pass of `traverse` is one iteration.** -/
theorem traverseBody_of_visit {keepRootLocked : Bool} {visit : TrieNode ρ → δ → Bool × δ}
    {st : TraverseState δ} {r : TraverseState δ ⊕ δ}
    (h : traverseVisit keepRootLocked visit st s = .ok (s', r)) :
    s'.trie = s.trie ∧ s'.store = s.store ∧
      traverseBody s.trie (fun n d => .ok (visit n d)) st = .ok r := by
  obtain ⟨stack, data⟩ := st
  cases stack with
  | nil =>
    obtain ⟨rfl, rfl⟩ := Prod.mk.inj (Except.ok.inj h)
    refine ⟨?_, ?_, rfl⟩ <;> split <;> rfl
  | cons a stack =>
    obtain ⟨s₁, hs₁, h⟩ := bind_eq_ok.mp h
    obtain ⟨-, rfl⟩ := SharedTrie.lock_eq_ok.mp hs₁
    unfold traverseBody
    simp only [bind, Except.bind]
    by_cases hl : 0 < (s.trie.node a).suffixStart
    · simp only [if_pos hl] at h ⊢
      cases hstop : (visit (s.trie.node a) data).1 with
      | true =>
        simp only [hstop, if_true] at h ⊢
        obtain ⟨rfl, rfl⟩ := Prod.mk.inj (Except.ok.inj h)
        refine ⟨?_, ?_, rfl⟩ <;> split <;> rfl
      | false =>
        simp only [hstop, Bool.false_eq_true, if_false] at h ⊢
        obtain ⟨rfl, rfl⟩ := Prod.mk.inj (Except.ok.inj h)
        refine ⟨?_, ?_, rfl⟩ <;> split <;> rfl
    · simp only [if_neg hl] at h ⊢
      obtain ⟨rfl, rfl⟩ := Prod.mk.inj (Except.ok.inj h)
      refine ⟨?_, ?_, rfl⟩ <;> split <;> rfl

end HandleTrie

end AttentionBroker
