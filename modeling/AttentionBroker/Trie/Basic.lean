import Mathlib.Data.List.FinRange
import AttentionBroker.Infra.Pool
import AttentionBroker.Infra.Loop

/-!
# `HandleTrie`: the data and the three operations

`attention_broker_server/HandleTrie.{h,cc}`. The nodes of a trie live in a pool and point
to each other by address. A node with `suffixStart > 0` is a leaf and carries a key and
a value object; the others only carry children.

Value objects are pointers (`ρ`) into a store (`σ`) that the trie does not look into. It
only calls `merge` and the destructor of the value class on it.

`insert`, `lookup` and `traverse` are loops, each written as the body of its `while` and
run by `Infra.loop`. The mutexes are not part of this layer: every operation here runs
alone.
-/

namespace AttentionBroker

open Infra

/-! ## Strings and errors -/

/-- A `std::string`, as its bytes. -/
abbrev Key := List UInt8

/-- How a call can fail to return. -/
inductive Fault where
  /-- `Utils::error` threw this message. -/
  | runtimeError (what : String)
  /-- A string was read outside of its bytes and its terminator. -/
  | outOfBounds
  /-- A field was read through a NULL pointer. -/
  | nullPointer
  /-- The loop did not end. -/
  | diverges
deriving DecidableEq, Repr

/-- `s[i]` on a `const std::string`. The byte at `s.size()` is the NUL terminator. -/
def charAt (s : Key) : Int → Except Fault UInt8
  | .ofNat i => if i ≤ s.length then .ok (s.getD i 0) else .error .outOfBounds
  | .negSucc _ => .error .outOfBounds

/-! ## The alphabet -/

/-- A child slot. `TRIE_ALPHABET_SIZE` is 16. -/
abbrev Slot := Fin 16

/--
`TLB`, the slot a byte selects.

The table is static, so the bytes that `TLB_INIT` does not set select slot 0.
-/
def TLB (b : UInt8) : Slot :=
  if 0x30 ≤ b.toNat ∧ b.toNat ≤ 0x39 then Fin.ofNat 16 (b.toNat - 0x30)
  else if 0x61 ≤ b.toNat ∧ b.toNat ≤ 0x66 then Fin.ofNat 16 (b.toNat - 0x61 + 10)
  else if 0x41 ≤ b.toNat ∧ b.toNat ≤ 0x46 then Fin.ofNat 16 (b.toNat - 0x41 + 10)
  else 0

/-- One of the symbols `0-9a-f`. -/
def IsHex (b : UInt8) : Prop :=
  (0x30 ≤ b.toNat ∧ b.toNat ≤ 0x39) ∨ (0x61 ≤ b.toNat ∧ b.toNat ≤ 0x66)

instance : DecidablePred IsHex := fun _ => inferInstanceAs (Decidable (_ ∨ _))

/-- A handle of the given size over `0-9a-f`. -/
def ValidKey (keySize : Nat) (k : Key) : Prop := k.length = keySize ∧ ∀ b ∈ k, IsHex b

instance (n : Nat) : DecidablePred (ValidKey n) := fun k =>
  -- along the key, and not over all bytes
  have : Decidable (∀ b ∈ k, IsHex b) := List.decidableBAll IsHex k
  inferInstanceAs (Decidable (_ ∧ _))

/-! ## Nodes and tries -/

/-- `HandleTrie::TrieNode`. -/
structure TrieNode (ρ : Type) where
  children : Slot → Option Nat
  value : Option ρ
  suffix : Key
  suffixStart : UInt8

/-- `TrieNode::TrieNode`. -/
def TrieNode.new {ρ : Type} : TrieNode ρ :=
  { children := fun _ => none, value := none, suffix := [], suffixStart := 0 }

/-- The virtual methods of a subclass of `HandleTrie::TrieValue`. -/
structure TrieValue (ρ σ : Type) where
  /-- `this->merge(other)`. -/
  merge : ρ → ρ → σ → σ
  /-- The destructor. -/
  delete : ρ → σ → σ

/-- `HandleTrie`. The constructor only accepts the key sizes of the two bounds. -/
structure HandleTrie (ρ : Type) where
  keySize : Nat
  root : Nat
  heap : Pool (TrieNode ρ)
  keySize_pos : 0 < keySize
  keySize_le : keySize ≤ 255

namespace HandleTrie

variable {ρ σ δ : Type}

/-- The trie a successful constructor call leaves. -/
def new (keySize : Nat) (h0 : 0 < keySize) (h1 : keySize ≤ 255) : HandleTrie ρ where
  keySize := keySize
  root := 0
  heap := (Pool.empty TrieNode.new).alloc TrieNode.new
  keySize_pos := h0
  keySize_le := h1

/-- `HandleTrie::HandleTrie`. -/
def construct (keySize : Nat) : Except Fault (HandleTrie ρ) :=
  if h : keySize = 0 ∨ keySize > 255 then
    .error (.runtimeError ("Invalid key size: " ++ toString keySize))
  else .ok (new keySize (by omega) (by omega))

/-- The node at an address. -/
def node (t : HandleTrie ρ) (a : Nat) : TrieNode ρ := t.heap.cell a

/-- `a->children[c] = b`. -/
def link (t : HandleTrie ρ) (a : Nat) (c : Slot) (b : Nat) : HandleTrie ρ :=
  { t with heap := t.heap.modify a fun n =>
      { n with children := Function.update n.children c (some b) } }

/-- `a->suffixStart++`. -/
def push (t : HandleTrie ρ) (a : Nat) : HandleTrie ρ :=
  { t with heap := t.heap.modify a fun n => { n with suffixStart := n.suffixStart + 1 } }

/-- `new TrieNode()`, with its fields set. -/
def newNode (t : HandleTrie ρ) (n : TrieNode ρ) : HandleTrie ρ :=
  { t with heap := t.heap.alloc n }

/-! ## insert -/

/-- The check both `insert` and `lookup` make first. -/
def checkSize (t : HandleTrie ρ) (key : Key) : Except Fault Unit :=
  if key.length ≠ t.keySize then
    .error (.runtimeError
      ("Invalid key size: " ++ toString key.length ++ " != " ++ toString t.keySize))
  else .ok ()

/-- The `match` loops: does `key[i..]` equal `suffix[i..]` over the next `n` bytes? -/
def matchFrom (key suffix : Key) : Nat → Nat → Except Fault Bool
  | _, 0 => .ok true
  | i, n + 1 => do
    let a ← charAt key i
    let b ← charAt suffix i
    if a ≠ b then .ok false else matchFrom key suffix (i + 1) n

/-- The local variables of `insert`, with the trie and the value store it changes. -/
structure InsertState (ρ σ : Type) where
  trie : HandleTrie ρ
  store : σ
  treeCursor : Nat
  parent : Nat
  keyCursor : UInt8

/-- The leaf `insert` makes for a new key. -/
def newLeaf (key : Key) (value : ρ) (keyCursor : UInt8) : TrieNode ρ :=
  { (TrieNode.new : TrieNode ρ) with
    suffix := key, suffixStart := keyCursor + 1, value := some value }

/--
The body of the loop in `insert`.

* empty slot below a leaf, next bytes equal: push the leaf one level down and go on
* empty slot below a leaf, next bytes differ: split and return
* empty slot below an internal node: attach the new leaf and return
* a child in the slot: descend, and merge if it is the leaf of this key
-/
def insertBody (ops : TrieValue ρ σ) (key : Key) (value : ρ) (st : InsertState ρ σ) :
    Except Fault (InsertState ρ σ ⊕ (ρ × HandleTrie ρ × σ)) := do
  let t := st.trie
  let cursor := t.node st.treeCursor
  let k ← charAt key st.keyCursor.toNat
  let c := TLB k
  match cursor.children c with
  | none =>
    if 0 < cursor.suffixStart then
      let cKeyPred := TLB (← charAt key ((st.keyCursor.toNat : Int) - 1))
      if k = (← charAt cursor.suffix st.keyCursor.toNat) then
        let child := t.heap.next
        let t := (t.newNode TrieNode.new).link child c st.treeCursor
        let t := (t.push st.treeCursor).link st.parent cKeyPred child
        .ok (.inl { st with trie := t, parent := child, keyCursor := st.keyCursor + 1 })
      else
        let child := t.heap.next
        let t := t.newNode (newLeaf key value st.keyCursor)
        let cTreeCursor := TLB (← charAt cursor.suffix cursor.suffixStart.toNat)
        let t := t.push st.treeCursor
        let split := t.heap.next
        let t := ((t.newNode TrieNode.new).link split c child).link split cTreeCursor
          st.treeCursor
        .ok (.inr (value, t.link st.parent cKeyPred split, st.store))
    else
      let child := t.heap.next
      let t := t.newNode (newLeaf key value st.keyCursor)
      .ok (.inr (value, t.link st.treeCursor c child, st.store))
  | some a =>
    -- `parent` follows the cursor; at the root they are the same node already
    let st := { st with parent := st.treeCursor, treeCursor := a }
    let cursor := t.node a
    if 0 < cursor.suffixStart then
      if ← matchFrom key cursor.suffix st.keyCursor.toNat
          (key.length - st.keyCursor.toNat) then
        match cursor.value with
        | none => .error .nullPointer
        | some v => .ok (.inr (v, t, ops.delete value (ops.merge v value st.store)))
      else .ok (.inl { st with keyCursor := st.keyCursor + 1 })
    else .ok (.inl { st with keyCursor := st.keyCursor + 1 })

/--
A bound on the iterations of `insert` and `lookup` beyond one for each node that is there, twice
the range of `keyCursor`.
-/
def loopBound : Nat := 512

/-- `HandleTrie::insert`. Returns the value bound to the key, with the new trie and store. -/
def insert (ops : TrieValue ρ σ) (t : HandleTrie ρ) (key : Key) (value : ρ) (store : σ) :
    Except Fault (ρ × HandleTrie ρ × σ) := do
  t.checkSize key
  loop .diverges (insertBody ops key value) (t.heap.next + loopBound)
    { trie := t, store := store, treeCursor := t.root, parent := t.root, keyCursor := 0 }

/-! ## lookup -/

/-- The local variables of `lookup`. -/
structure LookupState where
  treeCursor : Option Nat
  keyCursor : UInt8

/-- The body of the loop in `lookup`: one node visit. -/
def lookupBody (t : HandleTrie ρ) (key : Key) (st : LookupState) :
    Except Fault (LookupState ⊕ Option ρ) :=
  match st.treeCursor with
  | none => .ok (.inr none)
  | some a => do
    let cursor := t.node a
    if 0 < cursor.suffixStart then
      if ← matchFrom key cursor.suffix st.keyCursor.toNat
          (key.length - st.keyCursor.toNat) then
        .ok (.inr cursor.value)
      else .ok (.inr none)
    else
      let c := TLB (← charAt key st.keyCursor.toNat)
      .ok (.inl { treeCursor := cursor.children c, keyCursor := st.keyCursor + 1 })

/-- `HandleTrie::lookup`. -/
def lookup (t : HandleTrie ρ) (key : Key) : Except Fault (Option ρ) := do
  t.checkSize key
  loop .diverges (lookupBody t key) (t.heap.next + loopBound)
    { treeCursor := some t.root, keyCursor := 0 }

/-! ## traverse -/

/-- The local variables of `traverse`, with the data its visit function changes. -/
structure TraverseState (δ : Type) where
  nodeStack : List Nat
  data : δ

/-- The `for` loop that pushes the children, from slot 15 down to slot 0. -/
def pushChildren (n : TrieNode ρ) (stack : List Nat) : List Nat :=
  (List.finRange 16).reverse.foldl
    (fun stack c =>
      match n.children c with
      | some a => a :: stack
      | none => stack)
    stack

/-- The body of the loop in `traverse`: pops one node and visits it or pushes its children. -/
def traverseBody (t : HandleTrie ρ) (visit : TrieNode ρ → δ → Except Fault (Bool × δ))
    (st : TraverseState δ) : Except Fault (TraverseState δ ⊕ δ) :=
  match st.nodeStack with
  | [] => .ok (.inr st.data)
  | a :: stack => do
    let cursor := t.node a
    if 0 < cursor.suffixStart then
      let (stop, data) ← visit cursor st.data
      if stop then .ok (.inr data) else .ok (.inl { nodeStack := stack, data := data })
    else .ok (.inl { st with nodeStack := pushChildren cursor stack })

/--
`HandleTrie::traverse`.

`keepRootLocked` only says when the mutex of the root is released. Each allocated node
is popped at most once, which bounds the iterations.
-/
def traverse (t : HandleTrie ρ) (_keepRootLocked : Bool)
    (visit : TrieNode ρ → δ → Except Fault (Bool × δ)) (data : δ) : Except Fault δ :=
  loop .diverges (traverseBody t visit) (t.heap.next + 2)
    { nodeStack := [t.root], data := data }

end HandleTrie

end AttentionBroker
