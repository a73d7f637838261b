import Mathlib.Data.Finset.Card
import Mathlib.Data.Finset.Range
import AttentionBroker.Trie.Writes

/-!
# `HandleTrie::insert`

`insert` checks the length of the key and nothing else. `insert_ends` says how it ends for a
key of any bytes: it merges, it adds a leaf, or it reads past the end of the key (`RunsPast`).
For `key_size` 255 the cursor wraps instead, and the leaf is turned into an internal node.

On handles `TLB` is injective, so only the first two remain, and `insert_total` reads them as
an update of the map.
-/

namespace AttentionBroker

open Infra

/--
What a node at path `p` has to be when the keys are any bytes.

`within` is whether the nodes lie within the keys. It fails only after `suffixStart` has
wrapped, for keys of 255 bytes.
-/
structure TrieNode.Loose {ρ : Type} (n : TrieNode ρ) (keySize : Nat) (within : Prop)
    (p : List Slot) : Prop where
  start : 0 < n.suffixStart → n.suffixStart.toNat = p.length % 256
  size : 0 < n.suffixStart → n.suffix.length = keySize
  value : 0 < n.suffixStart → ∃ v, n.value = some v
  path : 0 < n.suffixStart → within → p <+: code n.suffix
  inner_depth : ¬ 0 < n.suffixStart → within → p.length < keySize
  inner_value : ¬ 0 < n.suffixStart → within → n.value = none

theorem TrieNode.Loose.weaken {ρ : Type} {n : TrieNode ρ} {ks : Nat} {within within' : Prop}
    {p : List Slot} (h : n.Loose ks within p) (hw : within' → within) : n.Loose ks within' p where
  start := h.start
  size := h.size
  value := h.value
  path := fun hl hw' => h.path hl (hw hw')
  inner_depth := fun hl hw' => h.inner_depth hl (hw hw')
  inner_value := fun hl hw' => h.inner_value hl (hw hw')

namespace HandleTrie

variable {ρ σ δ : Type} {t t' : HandleTrie ρ} {p q : List Slot} {a b : Nat} {c : Slot}

/-- The invariant of a trie whose keys are any bytes. -/
abbrev Loose (t : HandleTrie ρ) (keySize : Nat) (within : Prop) : Prop :=
  t.Laid fun n p => n.Loose keySize within p

/--
The key differs from the one of the leaf on its path in the byte that led to the leaf, and in no
byte after it.
-/
def RunsPast (t : HandleTrie ρ) (key : Key) : Prop :=
  ∃ q a, q <+: code key ∧ t.nodeAt q = some a ∧ 0 < (t.node a).suffixStart ∧
    key.drop (q.length - 1) ≠ (t.node a).suffix.drop (q.length - 1) ∧
    key.drop q.length = (t.node a).suffix.drop q.length

/--
The split put the two leaves in one slot: the old leaf is there, one byte `i` further, and
nothing leads to the new one.
-/
def Loses (t t' : HandleTrie ρ) (key : Key) : Prop :=
  ∃ q a i, q <+: code key ∧ t.nodeAt q = some a ∧ 0 < (t.node a).suffixStart ∧
    q.length ≤ i ∧ i < key.length ∧ key.getD i 0 ≠ (t.node a).suffix.getD i 0 ∧
    (code key).take (i + 1) = (code (t.node a).suffix).take (i + 1) ∧
    t'.nodeAt ((code key).take (i + 1)) = some a

/-- What a call of `insert` returns. -/
inductive Returns (ops : TrieValue ρ σ) (t : HandleTrie ρ) (key : Key) (value : ρ) (s : σ) :
    ρ × HandleTrie ρ × σ → Prop
  /-- The leaf on the path agrees with the key from the byte that led to it. -/
  | merged {q : List Slot} {a : Nat} {v : ρ} (hq : q <+: code key) (ha : t.nodeAt q = some a)
      (hl : 0 < (t.node a).suffixStart)
      (hsame : key.drop (q.length - 1) = (t.node a).suffix.drop (q.length - 1))
      (hv : (t.node a).value = some v) :
      Returns ops t key value s (v, t, ops.delete value (ops.merge v value s))
  | added {t' : HandleTrie ρ} (stored : Prop) (loose : t'.Loose t.keySize True)
      (evolves : Evolves key t t')
      (binds : ∀ k v, t'.Binds k v ↔ t.Binds k v ∨ stored ∧ k = key ∧ v = value)
      (differs : ∀ q a, q <+: code key → t.nodeAt q = some a → 0 < (t.node a).suffixStart →
        key.drop q.length ≠ (t.node a).suffix.drop q.length)
      (lost : ¬ stored → Loses t t' key) : Returns ops t key value s (value, t', s)
  /-- The cursor wrapped. -/
  | wrapped {t' : HandleTrie ρ} (hsize : t.keySize = 255) (hruns : t.RunsPast key) :
      Returns ops t key value s (value, t', s)

/-- How a call of `insert` ends. -/
def Ends (ops : TrieValue ρ σ) (t : HandleTrie ρ) (within : Prop) (key : Key) (value : ρ) (s : σ) :
    Except Fault (ρ × HandleTrie ρ × σ) → Prop
  | .ok r => r.2.1.keySize = t.keySize ∧ r.2.1.Loose t.keySize False ∧
      (within → Returns ops t key value s r)
  | .error e => e = .outOfBounds ∧ t.keySize < 255 ∧ t.RunsPast key

/-! ## Nodes and their places -/

theorem toNat_succ {b : UInt8} (h : b.toNat < 255) : (b + 1).toNat = b.toNat + 1 := by
  rw [UInt8.toNat_add, show (1 : UInt8).toNat = 1 from rfl, Nat.mod_eq_of_lt (by omega)]

theorem toNat_succ_mod {b : UInt8} {n : Nat} (h : b.toNat = n % 256) :
    (b + 1).toNat = (n + 1) % 256 := by
  rw [UInt8.toNat_add, show (1 : UInt8).toNat = 1 from rfl, h]
  omega

theorem pos_iff {b : UInt8} : 0 < b ↔ 0 < b.toNat := UInt8.lt_iff_toNat_lt

theorem Loose.weaken {ks : Nat} {within within' : Prop} (l : t.Loose ks within)
    (hw : within' → within) : t.Loose ks within' where
  root_inner := l.root_inner
  tree := l.tree
  allocated := l.allocated
  bare := l.bare
  fits := fun p a ha => (l.fits p a ha).weaken hw

/-- A write to a slot of an internal node leaves it what it has to be. -/
theorem Graft.loose_parent {ks : Nat} {within : Prop} (g : Graft t t' p a c)
    (h : (t.node a).Loose ks within p) : (t'.node a).Loose ks within p := by
  have hin : ¬ 0 < (t'.node a).suffixStart := by rw [g.parent_start]; exact g.inner
  exact
    { start := fun hl => absurd hl hin
      size := fun hl => absurd hl hin
      value := fun hl => absurd hl hin
      path := fun hl => absurd hl hin
      inner_depth := fun _ => h.inner_depth g.inner
      inner_value := fun _ => by rw [g.parent_value]; exact h.inner_value g.inner }

/-- A new internal node is right wherever there is room. -/
theorem loose_inner {ks : Nat} {within : Prop} {children : Slot → Option Nat}
    (hp : within → p.length < ks) :
    TrieNode.Loose { (TrieNode.new : TrieNode ρ) with children := children } ks within p := by
  have hn : ¬ 0 < (TrieNode.new : TrieNode ρ).suffixStart := by simp [TrieNode.new]
  exact ⟨fun h => absurd h hn, fun h => absurd h hn, fun h => absurd h hn, fun h => absurd h hn,
    fun _ => hp, fun _ _ => rfl⟩

/-- A path is shorter than the number of nodes, which are all different along it. -/
theorem Laid.length_lt_next {Fit : TrieNode ρ → List Slot → Prop} (l : t.Laid Fit)
    (ha : t.nodeAt p = some a) : p.length < t.heap.next := by
  have hat : ∀ i, ∃ x, t.nodeAt (p.take i) = some x := fun i => by
    have ha' : t.nodeAt (p.take i ++ p.drop i) = some a := by rwa [List.take_append_drop]
    obtain ⟨x, hx, -⟩ := walk_prefix ha'
    exact ⟨x, hx⟩
  choose node hnode using hat
  have hcard := Finset.card_le_card_of_injOn node
    (s := Finset.range (p.length + 1)) (t := Finset.range t.heap.next)
    (fun i _ => Finset.mem_coe.mpr (Finset.mem_range.mpr (l.allocated _ _ (hnode i)))) ?_
  · rw [Finset.card_range, Finset.card_range] at hcard
    exact hcard
  · intro i hi j hj hij
    have hpath : p.take i = p.take j := l.tree _ _ _ (hnode i) (hij ▸ hnode j)
    have hlen := congrArg List.length hpath
    rw [Finset.mem_coe, Finset.mem_range] at hi hj
    rw [List.length_take, List.length_take] at hlen
    omega

/-- A node with a child is internal. -/
theorem Laid.inner_of_kid {Fit : TrieNode ρ → List Slot → Prop} (l : t.Laid Fit)
    (ha : t.nodeAt p = some a) (hc : t.kids a c = some b) : ¬ 0 < (t.node a).suffixStart := by
  intro hl
  rw [l.bare p a ha hl c] at hc
  exact absurd hc (by simp)

/-! ## The loop -/

/--
The invariant of the loop in `insert`: the map has not changed, the cursor is the node at `q`,
which the symbols read lead to, and `parent` is one level above it.
-/
structure Reached (t₀ : HandleTrie ρ) (within : Prop) (key : Key) (s₀ : σ) (q : List Slot)
    (st : InsertState ρ σ) : Prop where
  loose : st.trie.Loose t₀.keySize within
  keySize : st.trie.keySize = t₀.keySize
  store : st.store = s₀
  kept : within → Evolves key t₀ st.trie ∧ ∀ k v, st.trie.Binds k v ↔ t₀.Binds k v
  at_cursor : st.trie.nodeAt q = some st.treeCursor
  key_cursor : st.keyCursor.toNat = q.length % 256
  on_key : within → q <+: code key
  at_parent : ∀ p c, q = p ++ [c] → st.trie.nodeAt p = some st.parent ∧
    (0 < st.keyCursor.toNat → TLB (key.getD (st.keyCursor.toNat - 1) 0) = c)

/-- The leaf `L` was reached at `q₀`, did not match there, and has agreed with the key since. -/
def Passed (t₀ : HandleTrie ρ) (key : Key) (L : Nat) (suffix : Key) (i : Nat) : Prop :=
  ∃ q₀, q₀ <+: code key ∧ t₀.nodeAt q₀ = some L ∧ 0 < (t₀.node L).suffixStart ∧
    (t₀.node L).suffix = suffix ∧ q₀.length ≤ i ∧
    key.drop (q₀.length - 1) ≠ suffix.drop (q₀.length - 1) ∧
    ∀ j, q₀.length ≤ j → j < i → key.getD j 0 = suffix.getD j 0

/--
At most `m` more iterations follow this one: the cursor goes down the trie, moves the leaf it
has met down the key, has passed the terminator of the key, or has wrapped.
-/
inductive Going (t₀ : HandleTrie ρ) (within : Prop) (key : Key) (s₀ : σ) :
    Nat → InsertState ρ σ → Prop
  | descending {m : Nat} {q : List Slot} {st : InsertState ρ σ}
      (h : Reached t₀ within key s₀ q st) (hin : ¬ 0 < (st.trie.node st.treeCursor).suffixStart)
      (htrie : st.trie = t₀) (hm : m + q.length = t₀.heap.next + 260) :
      Going t₀ within key s₀ m st
  | atLeaf {m : Nat} {q : List Slot} {st : InsertState ρ σ} (h : Reached t₀ within key s₀ q st)
      (hl : 0 < (st.trie.node st.treeCursor).suffixStart) (hm : m + st.keyCursor.toNat = 258)
      (hpassed : within → Passed t₀ key st.treeCursor (st.trie.node st.treeCursor).suffix q.length) :
      Going t₀ within key s₀ m st
  | past {st : InsertState ρ σ} (hk : key.length < st.keyCursor.toNat) (hks : t₀.keySize < 255)
      (hruns : t₀.RunsPast key) : Going t₀ within key s₀ 1 st
  | wrapped {q : List Slot} {st : InsertState ρ σ} (h : Reached t₀ False key s₀ q st)
      (hin : ¬ 0 < (st.trie.node st.treeCursor).suffixStart)
      (hbare : ∀ c, st.trie.kids st.treeCursor c = none) (hks : t₀.keySize = 255)
      (hruns : within → t₀.RunsPast key) : Going t₀ within key s₀ 1 st

section Body

variable {ops : TrieValue ρ σ} {t₀ : HandleTrie ρ} {within : Prop} {key : Key} {value : ρ} {s₀ : σ}
  {st : InsertState ρ σ} {m : Nat}

/-- The next symbol of the key, or its terminator, can be read. -/
theorem Reached.in_key (h : Reached t₀ within key s₀ q st) (hkey : key.length = t₀.keySize)
    (hw : within ∨ t₀.keySize = 255) : st.keyCursor.toNat ≤ key.length := by
  rcases hw with hw | hks
  · have hlen := (h.on_key hw).length_le
    rw [code_length] at hlen
    have hcur := h.key_cursor
    have hmod := Nat.mod_le q.length 256
    omega
  · have hlt := st.keyCursor.toNat_lt
    omega

/-- Within the keys the cursor does not wrap. -/
theorem Reached.cursor_eq (h : Reached t₀ within key s₀ q st) (hkey : key.length = t₀.keySize)
    (hw : within) : st.keyCursor.toNat = q.length := by
  have hlen := (h.on_key hw).length_le
  rw [code_length] at hlen
  have hks := t₀.keySize_le
  rw [h.key_cursor]
  exact Nat.mod_eq_of_lt (by omega)

/-- Where the next symbol leads is on the path of the key. -/
theorem Reached.on_key_snoc (h : Reached t₀ within key s₀ q st) (hkey : key.length = t₀.keySize)
    (hw : within) (hlt : st.keyCursor.toNat < key.length) :
    q ++ [TLB (key.getD st.keyCursor.toNat 0)] <+: code key := by
  rw [h.cursor_eq hkey hw] at hlt ⊢
  exact code_snoc (h.on_key hw) hlt

theorem newLeaf_start {kc : UInt8} (hkc : kc.toNat = q.length % 256) :
    (newLeaf key value kc).suffixStart.toNat = (q.length + 1) % 256 :=
  toNat_succ_mod hkc

theorem holds_newLeaf {kc : UInt8} (hl : 0 < (newLeaf key value kc).suffixStart) {k : Key} {v : ρ} :
    (newLeaf key value kc).Holds k v ↔ k = key ∧ v = value := by
  constructor
  · rintro ⟨-, hk, hv⟩
    exact ⟨hk.symm, (Option.some.inj hv).symm⟩
  · rintro ⟨rfl, rfl⟩
    exact ⟨hl, rfl, rfl⟩

/-- The new leaf is right one level below the cursor. -/
theorem Reached.loose_newLeaf (h : Reached t₀ within key s₀ q st) (hkey : key.length = t₀.keySize)
    (hlt : within → st.keyCursor.toNat < key.length) :
    (newLeaf key value st.keyCursor).Loose t₀.keySize within
      (q ++ [TLB (key.getD st.keyCursor.toNat 0)]) := by
  have hstart : (newLeaf key value st.keyCursor).suffixStart.toNat = (q.length + 1) % 256 :=
    newLeaf_start h.key_cursor
  have hpos : within → 0 < (newLeaf key value st.keyCursor).suffixStart := fun hw => by
    have hlt := hlt hw
    have hks := t₀.keySize_le
    have hcur := h.cursor_eq hkey hw
    rw [pos_iff, hstart]
    omega
  exact
    { start := fun _ => by rw [hstart, List.length_append, List.length_singleton]
      size := fun _ => hkey
      value := fun _ => ⟨value, rfl⟩
      path := fun _ hw => h.on_key_snoc hkey hw (hlt hw)
      inner_depth := fun hn hw => absurd (hpos hw) hn
      inner_value := fun hn hw => absurd (hpos hw) hn }

/-- What an iteration of `insert` has to establish. -/
abbrev Iterates (ops : TrieValue ρ σ) (t₀ : HandleTrie ρ) (within : Prop) (key : Key) (value : ρ)
    (s₀ : σ) (m : Nat) (o : Except Fault (InsertState ρ σ ⊕ (ρ × HandleTrie ρ × σ))) : Prop :=
  Settles (Going t₀ within key s₀) (Ends ops t₀ within key value s₀) m o

/-- The step at an empty slot of an internal node: attach the new leaf. -/
theorem insertBody_attach (ops : TrieValue ρ σ) (value : ρ) (hkey : key.length = t₀.keySize)
    (h : Reached t₀ within key s₀ q st)
    (hin : ¬ 0 < (st.trie.node st.treeCursor).suffixStart)
    (hlt : within → st.keyCursor.toNat < key.length) (hread : st.keyCursor.toNat ≤ key.length)
    (hc : st.trie.kids st.treeCursor (TLB (key.getD st.keyCursor.toNat 0)) = none) :
    ∃ t', insertBody ops key value st = .ok (.inr (value, t', s₀)) ∧
      t'.keySize = t₀.keySize ∧ t'.Loose t₀.keySize within ∧
      (within → Evolves key st.trie t' ∧
        ∀ k v, t'.Binds k v ↔ st.trie.Binds k v ∨ k = key ∧ v = value) := by
  have hatt := attached h.loose h.at_cursor hin hc (n := newLeaf key value st.keyCursor)
    fun _ => rfl
  refine ⟨(st.trie.newNode (newLeaf key value st.keyCursor)).link st.treeCursor
    (TLB (key.getD st.keyCursor.toNat 0)) st.trie.heap.next, ?_, h.keySize, hatt.laid h.loose hatt.toGraft.loose_parent
    (h.loose_newLeaf hkey hlt), fun hw => ?_⟩
  · unfold kids at hc
    unfold insertBody
    simp only [charAt_le hread, bind, Except.bind, hc, if_neg hin, h.store]
  · have hl : 0 < (newLeaf key value st.keyCursor).suffixStart := by
      have hlt := hlt hw
      have hks := t₀.keySize_le
      rw [pos_iff, newLeaf_start h.key_cursor, ← h.cursor_eq hkey hw]
      omega
    refine ⟨hatt.evolves h.loose hl, fun k v => (hatt.binds_iff h.loose k v).trans ?_⟩
    rw [holds_newLeaf hl]

/-- No leaf is on the path of a key that ends at an empty slot. -/
theorem Laid.no_leaf_of_slot {Fit : TrieNode ρ → List Slot → Prop} (l : t.Laid Fit)
    (hq : q ++ [c] <+: code key) (ha : t.nodeAt q = some a) (hin : ¬ 0 < (t.node a).suffixStart)
    (hc : t.kids a c = none) (hp : p <+: code key) (hb : t.nodeAt p = some b) :
    ¬ 0 < (t.node b).suffixStart := by
  intro hl
  rcases List.prefix_or_prefix_of_prefix hp hq with hpq | ⟨r, rfl⟩
  · rcases List.prefix_concat_iff.mp hpq with rfl | hpq
    · rw [nodeAt_snoc, ha, Option.bind_some, hc] at hb
      cases hb
    · obtain rfl := l.below_leaf hb hl ha hpq
      exact hin (Option.some.inj (ha.symm.trans hb) ▸ hl)
  · rw [List.append_assoc, List.singleton_append, nodeAt, walk_slot_none ha hc] at hb
    cases hb

/-- The iteration at an internal node with no child on the path of the key. -/
theorem iterates_attach (hkey : key.length = t₀.keySize) (hw : within ∨ t₀.keySize = 255)
    (h : Reached t₀ within key s₀ q st) (hin : ¬ 0 < (st.trie.node st.treeCursor).suffixStart)
    (htrie : st.trie = t₀)
    (hc : st.trie.kids st.treeCursor (TLB (key.getD st.keyCursor.toNat 0)) = none) :
    Iterates ops t₀ within key value s₀ m (insertBody ops key value st) := by
  have hlt : within → st.keyCursor.toNat < key.length := fun hw => by
    rw [h.cursor_eq hkey hw, hkey]
    exact (h.loose.fits q _ h.at_cursor).inner_depth hin hw
  obtain ⟨t', hbody, hsize, hloose, hmap⟩ :=
    insertBody_attach ops value hkey h hin hlt (h.in_key hkey hw) hc
  rw [hbody]
  refine ⟨hsize, hloose.weaken False.elim, fun hw => ?_⟩
  obtain ⟨hev, hbinds⟩ := hmap hw
  rw [htrie] at hev
  refine Returns.added True ?_ hev (fun k v => ?_) ?_ fun hn => absurd trivial hn
  · simpa [hw] using hloose
  · rw [hbinds, (h.kept hw).2, true_and]
  · intro p b hp hb hl
    have hno := h.loose.no_leaf_of_slot (h.on_key_snoc hkey hw (hlt hw)) h.at_cursor hin hc hp
      (htrie ▸ hb)
    exact absurd (htrie ▸ hl) hno

/-- The symbol that was read last led to the slot, unless the cursor has wrapped. -/
theorem Reached.slot_before (h : Reached t₀ within key s₀ q st)
    (hpos : 0 < (st.keyCursor + 1).toNat) :
    TLB (key.getD ((st.keyCursor + 1).toNat - 1) 0) = TLB (key.getD st.keyCursor.toNat 0) := by
  have hsucc : (st.keyCursor + 1).toNat = st.keyCursor.toNat + 1 := by
    have h1 := toNat_succ_mod h.key_cursor
    have h2 := h.key_cursor
    omega
  rw [hsucc, Nat.add_sub_cancel]

/-- The step to a child. -/
theorem Reached.child (h : Reached t₀ within key s₀ q st) (hkey : key.length = t₀.keySize)
    (hlt : within → st.keyCursor.toNat < key.length)
    (hc : st.trie.kids st.treeCursor (TLB (key.getD st.keyCursor.toNat 0)) = some a) :
    Reached t₀ within key s₀ (q ++ [TLB (key.getD st.keyCursor.toNat 0)])
      { st with parent := st.treeCursor, treeCursor := a, keyCursor := st.keyCursor + 1 } where
  loose := h.loose
  keySize := h.keySize
  store := h.store
  kept := h.kept
  at_cursor := nodeAt_kid h.at_cursor hc
  key_cursor := by
    rw [List.length_append, List.length_singleton]
    exact toNat_succ_mod h.key_cursor
  on_key := fun hw => h.on_key_snoc hkey hw (hlt hw)
  at_parent := fun p d hp => by
    obtain ⟨rfl, hd⟩ := List.append_inj' hp rfl
    exact ⟨h.at_cursor, fun hpos => (h.slot_before hpos).trans (List.singleton_inj.mp hd)⟩

/-- The iteration at an internal node whose child on the path is a leaf. -/
theorem iterates_leaf (hkey : key.length = t₀.keySize) (hw : within ∨ t₀.keySize = 255)
    (h : Reached t₀ within key s₀ q st) (hin : ¬ 0 < (st.trie.node st.treeCursor).suffixStart)
    (htrie : st.trie = t₀) (hm : m + q.length = t₀.heap.next + 260)
    (hc : st.trie.kids st.treeCursor (TLB (key.getD st.keyCursor.toNat 0)) = some a)
    (hl : 0 < (st.trie.node a).suffixStart) :
    Iterates ops t₀ within key value s₀ m (insertBody ops key value st) := by
  have hread := h.in_key hkey hw
  have hlt : within → st.keyCursor.toNat < key.length := fun hw => by
    rw [h.cursor_eq hkey hw, hkey]
    exact (h.loose.fits q _ h.at_cursor).inner_depth hin hw
  have hdepth : q.length < st.trie.heap.next := h.loose.length_lt_next h.at_cursor
  have hnext := h.child hkey hlt hc
  have hat := hnext.at_cursor
  have hfits := h.loose.fits _ a hat
  have hlen : key.length = (st.trie.node a).suffix.length := hkey.trans (hfits.size hl).symm
  have hmatch := matchFrom_eq hlen (key.length - st.keyCursor.toNat) st.keyCursor.toNat (by omega)
  have hc' := hc
  unfold kids at hc'
  by_cases hsame : key.drop st.keyCursor.toNat = (st.trie.node a).suffix.drop st.keyCursor.toNat
  · obtain ⟨v, hv⟩ := hfits.value hl
    have hbody : insertBody ops key value st
        = .ok (.inr (v, st.trie, ops.delete value (ops.merge v value st.store))) := by
      unfold insertBody
      simp only [charAt_le hread, bind, Except.bind, hc', if_pos hl, hmatch, decide_eq_true hsame,
        if_true, hv]
    rw [hbody]
    refine ⟨h.keySize, h.loose.weaken False.elim, fun hw => ?_⟩
    rw [h.store, htrie]
    rw [htrie] at hat hl hv hsame
    refine Returns.merged (hnext.on_key hw) hat hl ?_ hv
    rwa [List.length_append, List.length_singleton, Nat.add_sub_cancel, ← h.cursor_eq hkey hw]
  · have hbody : insertBody ops key value st = .ok (.inl { st with
        parent := st.treeCursor, treeCursor := a, keyCursor := st.keyCursor + 1 }) := by
      unfold insertBody
      simp only [charAt_le hread, bind, Except.bind, hc', if_pos hl, hmatch, decide_eq_false hsame,
        Bool.false_eq_true, if_false]
    rw [hbody]
    have hkc := (st.keyCursor + 1).toNat_lt
    refine ⟨258 - (st.keyCursor + 1).toNat, by rw [htrie] at hdepth; omega,
      Going.atLeaf hnext hl ?_ fun hw => ?_⟩
    · show 258 - (st.keyCursor + 1).toNat + (st.keyCursor + 1).toNat = 258
      omega
    · refine ⟨_, hnext.on_key hw, htrie ▸ hat, htrie ▸ hl, by rw [htrie], Nat.le_refl _, ?_,
        fun j h1 h2 => absurd h1 (Nat.not_le.mpr h2)⟩
      rwa [List.length_append, List.length_singleton, Nat.add_sub_cancel, ← h.cursor_eq hkey hw]

/-- The iteration at an internal node whose child on the path is internal. -/
theorem iterates_inner (hkey : key.length = t₀.keySize) (hw : within ∨ t₀.keySize = 255)
    (h : Reached t₀ within key s₀ q st) (hin : ¬ 0 < (st.trie.node st.treeCursor).suffixStart)
    (htrie : st.trie = t₀) (hm : m + q.length = t₀.heap.next + 260)
    (hc : st.trie.kids st.treeCursor (TLB (key.getD st.keyCursor.toNat 0)) = some a)
    (hl : ¬ 0 < (st.trie.node a).suffixStart) :
    Iterates ops t₀ within key value s₀ m (insertBody ops key value st) := by
  have hlt : within → st.keyCursor.toNat < key.length := fun hw => by
    rw [h.cursor_eq hkey hw, hkey]
    exact (h.loose.fits q _ h.at_cursor).inner_depth hin hw
  have hdepth : q.length < st.trie.heap.next := h.loose.length_lt_next h.at_cursor
  have hnext := h.child hkey hlt hc
  have hbody : insertBody ops key value st = .ok (.inl { st with
      parent := st.treeCursor, treeCursor := a, keyCursor := st.keyCursor + 1 }) := by
    unfold kids at hc
    unfold insertBody
    simp only [charAt_le (h.in_key hkey hw), bind, Except.bind, hc, if_neg hl]
  rw [hbody]
  refine ⟨m - 1, by rw [htrie] at hdepth; omega, Going.descending hnext hl htrie ?_⟩
  rw [List.length_append, List.length_singleton]
  rw [htrie] at hdepth
  omega

/-- What is known when the cursor of `insert` is at a leaf. -/
theorem Reached.at_leaf (h : Reached t₀ within key s₀ q st)
    (hl : 0 < (st.trie.node st.treeCursor).suffixStart) :
    ∃ p c₀, q = p ++ [c₀] ∧ st.trie.nodeAt p = some st.parent ∧
      st.trie.kids st.parent c₀ = some st.treeCursor ∧
      ¬ 0 < (st.trie.node st.parent).suffixStart ∧
      (st.trie.node st.treeCursor).suffixStart.toNat = st.keyCursor.toNat ∧
      0 < st.keyCursor.toNat ∧ TLB (key.getD (st.keyCursor.toNat - 1) 0) = c₀ := by
  have hcur := h.at_cursor
  have hstart := (h.loose.fits q _ hcur).start hl
  have hkc : (st.trie.node st.treeCursor).suffixStart.toNat = st.keyCursor.toNat :=
    hstart.trans h.key_cursor.symm
  have hpos : 0 < st.keyCursor.toNat := hkc ▸ pos_iff.mp hl
  rcases List.eq_nil_or_concat q with rfl | ⟨p, c₀, rfl⟩
  · rw [nodeAt_nil] at hcur
    exact absurd (Option.some.inj hcur ▸ hl) h.loose.root_inner
  · rw [List.concat_eq_append] at hcur h
    obtain ⟨hpar, hslot⟩ := h.at_parent p c₀ rfl
    rw [nodeAt_snoc, hpar, Option.bind_some] at hcur
    exact ⟨p, c₀, List.concat_eq_append, hpar, hcur, h.loose.inner_of_kid hpar hcur, hkc, hpos,
      hslot hpos⟩

/-- The key of the leaf is not the one being inserted. -/
theorem Passed.ne {L i : Nat} {suffix : Key} (h : Passed t₀ key L suffix i) : suffix ≠ key := by
  obtain ⟨q₀, -, -, -, -, -, hne, -⟩ := h
  intro he
  exact hne (by rw [he])

theorem Passed.succ {L i : Nat} {suffix : Key} (h : Passed t₀ key L suffix i)
    (hchar : key.getD i 0 = suffix.getD i 0) : Passed t₀ key L suffix (i + 1) := by
  obtain ⟨q₀, hq₀, hat, hl, hs, hle, hne, hsame⟩ := h
  refine ⟨q₀, hq₀, hat, hl, hs, Nat.le_succ_of_le hle, hne, fun j h1 h2 => ?_⟩
  rcases Nat.lt_succ_iff_lt_or_eq.mp h2 with h2 | rfl
  · exact hsame j h1 h2
  · exact hchar

/-- When the terminators are reached, the key runs past its end. -/
theorem Passed.runsPast {L : Nat} {suffix : Key} (hlen : key.length = suffix.length)
    (h : Passed t₀ key L suffix key.length) : t₀.RunsPast key := by
  obtain ⟨q₀, hq₀, hat, hl, rfl, -, hne, hsame⟩ := h
  exact ⟨q₀, L, hq₀, hat, hl, hne, drop_eq_of_getD hlen hsame⟩

theorem Reached.pushed_start (h : Reached t₀ within key s₀ q st)
    (hl : 0 < (st.trie.node st.treeCursor).suffixStart) :
    ((st.trie.node st.treeCursor).suffixStart + 1).toNat = (q.length + 1) % 256 :=
  toNat_succ_mod ((h.loose.fits q _ h.at_cursor).start hl)

/-- A leaf that moves down within the key is one afterwards. -/
theorem Reached.pushed_pos (h : Reached t₀ within key s₀ q st) (hkey : key.length = t₀.keySize)
    (hl : 0 < (st.trie.node st.treeCursor).suffixStart) (hlt : st.keyCursor.toNat < key.length) :
    0 < (st.trie.node st.treeCursor).suffixStart + 1 := by
  have hks := t₀.keySize_le
  have hcursor := h.key_cursor
  rw [pos_iff, h.pushed_start hl]
  omega

/-- The leaf at the cursor is right one level down its own key. -/
theorem Reached.loose_pushed {within' : Prop} (h : Reached t₀ within key s₀ q st)
    (hw : within' → within) (hkey : key.length = t₀.keySize)
    (hl : 0 < (st.trie.node st.treeCursor).suffixStart)
    (hlt : within' → st.keyCursor.toNat < key.length) :
    TrieNode.Loose { st.trie.node st.treeCursor with
      suffixStart := (st.trie.node st.treeCursor).suffixStart + 1 } t₀.keySize within'
      (q ++ [TLB ((st.trie.node st.treeCursor).suffix.getD st.keyCursor.toNat 0)]) := by
  have hfits := h.loose.fits q _ h.at_cursor
  exact
    { start := fun _ => by rw [h.pushed_start hl, List.length_append, List.length_singleton]
      size := fun _ => hfits.size hl
      value := fun _ => hfits.value hl
      path := fun _ hw' => by
        have h1 := h.cursor_eq hkey (hw hw')
        rw [h1]
        exact code_snoc (hfits.path hl (hw hw')) (by rw [hfits.size hl, ← hkey, ← h1]; exact hlt hw')
      inner_depth := fun hn hw' => absurd (h.pushed_pos hkey hl (hlt hw')) hn
      inner_value := fun hn hw' => absurd (h.pushed_pos hkey hl (hlt hw')) hn }

/-- The pointer writes of the push. -/
theorem insertBody_push (hread : st.keyCursor.toNat ≤ key.length)
    (hl : 0 < (st.trie.node st.treeCursor).suffixStart)
    (hlen : key.length = (st.trie.node st.treeCursor).suffix.length)
    (hc : st.trie.kids st.treeCursor (TLB (key.getD st.keyCursor.toNat 0)) = none)
    (hchar : key.getD st.keyCursor.toNat 0
      = (st.trie.node st.treeCursor).suffix.getD st.keyCursor.toNat 0) {c₀ : Slot}
    (hpos : 0 < st.keyCursor.toNat) (hslot : TLB (key.getD (st.keyCursor.toNat - 1) 0) = c₀) :
    insertBody ops key value st = .ok (.inl { st with
      trie := (((st.trie.newNode TrieNode.new).link st.trie.heap.next
        (TLB (key.getD st.keyCursor.toNat 0)) st.treeCursor).push st.treeCursor).link st.parent c₀
          st.trie.heap.next
      parent := st.trie.heap.next
      keyCursor := st.keyCursor + 1 }) := by
  have hread_s := charAt_le (hlen ▸ hread)
  unfold kids at hc
  unfold insertBody
  simp only [charAt_le hread, bind, Except.bind, hc, if_pos hl, charAt_pred hpos hread, hread_s,
    if_pos hchar, hslot]

/--
The state after the push. The leaf is one level further down the key; past the end of the key
only the part of the invariant that does not mention the key is left.
-/
theorem Reached.pushed {within' : Prop} (h : Reached t₀ within key s₀ (p ++ [c]) st)
    (hw : within' → within) (hkey : key.length = t₀.keySize)
    (hl : 0 < (st.trie.node st.treeCursor).suffixStart)
    (hpar : st.trie.nodeAt p = some st.parent)
    (hkid : st.trie.kids st.parent c = some st.treeCursor)
    (hin : ¬ 0 < (st.trie.node st.parent).suffixStart)
    (hchar : key.getD st.keyCursor.toNat 0
      = (st.trie.node st.treeCursor).suffix.getD st.keyCursor.toNat 0)
    (hlt : within' → st.keyCursor.toNat < key.length)
    (hne : within' → (st.trie.node st.treeCursor).suffix ≠ key) {t' : HandleTrie ρ}
    (ht : t' = (((st.trie.newNode TrieNode.new).link st.trie.heap.next
      (TLB (key.getD st.keyCursor.toNat 0)) st.treeCursor).push st.treeCursor).link st.parent c
        st.trie.heap.next) :
    Reached t₀ within' key s₀ ((p ++ [c]) ++ [TLB (key.getD st.keyCursor.toNat 0)])
      { st with trie := t', parent := st.trie.heap.next, keyCursor := st.keyCursor + 1 } ∧
      t'.node st.treeCursor = { st.trie.node st.treeCursor with
        suffixStart := (st.trie.node st.treeCursor).suffixStart + 1 } := by
  have hd := deepened_push h.loose hpar hin hkid hl (TLB (key.getD st.keyCursor.toNat 0))
  simp only at hd
  rw [← ht] at hd
  have hfits := h.loose.fits _ _ h.at_cursor
  have hpath : ∀ d : Slot, p ++ [c, d] = (p ++ [c]) ++ [d] := fun d => by simp
  have hpos : within' → 0 < (st.trie.node st.treeCursor).suffixStart + 1 := fun hw' =>
    h.pushed_pos hkey hl (hlt hw')
  have hloose : t'.Loose t₀.keySize within' := by
    refine hd.laid (h.loose.weaken hw) hd.toGraft.loose_parent ?_ ?_ ?_
    · rw [hd.node]
      refine loose_inner fun hw' => ?_
      rw [← h.cursor_eq hkey (hw hw'), ← hkey]
      exact hlt hw'
    · rw [hd.pushed, hpath, hchar]
      exact h.loose_pushed hw hkey hl hlt
    · exact fun d x hdc hdx => absurd (push_slot hdx) hdc
  refine ⟨⟨hloose, ?_, h.store, fun hw' => ?_, ?_, ?_, fun hw' => ?_, fun p' d hp => ?_⟩,
    hd.pushed⟩
  · exact hd.keySize.trans h.keySize
  · obtain ⟨hev, hbinds⟩ := h.kept (hw hw')
    have hev' : Evolves key st.trie t' :=
      hd.evolves h.loose (hpos hw') (h.on_key (hw hw')) (hfits.path hl (hw hw')) (hfits.value hl)
        (hne hw') fun d x hdc hdx => absurd (push_slot hdx) hdc
    refine ⟨hev.trans hev', fun k v => ?_⟩
    rw [← hbinds]
    refine (hd.binds_iff h.loose (hpos hw') k v).trans ⟨?_, Or.inl⟩
    rintro (hb | ⟨d, x, hdc, hdx, -⟩)
    · exact hb
    · exact absurd (push_slot hdx) hdc
  · show t'.nodeAt _ = _
    rw [← hpath]
    exact hd.nodeAt_slot h.loose hd.kept
  · show (st.keyCursor + 1).toNat = _
    rw [List.length_append, List.length_singleton]
    exact toNat_succ_mod h.key_cursor
  · exact h.on_key_snoc hkey (hw hw') (hlt hw')
  · obtain ⟨rfl, hdc⟩ := List.append_inj' hp rfl
    exact ⟨hd.nodeAt_new h.loose, fun hpos =>
      (h.slot_before hpos).trans (List.singleton_inj.mp hdc)⟩

/-- The iteration at a leaf that shares the next symbol, or the terminator, of the key. -/
theorem iterates_push (hkey : key.length = t₀.keySize) (hw : within ∨ t₀.keySize = 255)
    (h : Reached t₀ within key s₀ q st) (hl : 0 < (st.trie.node st.treeCursor).suffixStart)
    (hm : m + st.keyCursor.toNat = 258)
    (hpassed : within → Passed t₀ key st.treeCursor (st.trie.node st.treeCursor).suffix q.length)
    (hc : st.trie.kids st.treeCursor (TLB (key.getD st.keyCursor.toNat 0)) = none)
    (hchar : key.getD st.keyCursor.toNat 0
      = (st.trie.node st.treeCursor).suffix.getD st.keyCursor.toNat 0) :
    Iterates ops t₀ within key value s₀ m (insertBody ops key value st) := by
  have hread := h.in_key hkey hw
  have hfits := h.loose.fits q _ h.at_cursor
  have hlen := hkey.trans (hfits.size hl).symm
  have hks := t₀.keySize_le
  obtain ⟨p, c₀, rfl, hpar, hkid, hin, hstart, hpos, hslot⟩ := h.at_leaf hl
  rw [insertBody_push hread hl hlen hc hchar hpos hslot]
  have hnext := fun (within' : Prop) (hw' : within' → within)
    (hlt : within' → st.keyCursor.toNat < key.length) =>
      h.pushed hw' hkey hl hpar hkid hin hchar hlt (fun hw => (hpassed (hw' hw)).ne) rfl
  have hcursor := h.key_cursor
  have hbyte := st.keyCursor.toNat_lt
  by_cases hlt : st.keyCursor.toNat < key.length
  · -- the leaf is still one
    have hsucc : (st.keyCursor + 1).toNat = st.keyCursor.toNat + 1 := toNat_succ (by omega)
    obtain ⟨hreached, hnode⟩ := hnext within id fun _ => hlt
    have hleaf := congrArg TrieNode.suffixStart hnode
    have hsuffix := congrArg TrieNode.suffix hnode
    refine ⟨m - 1, by omega, Going.atLeaf hreached ?_ ?_ fun hw => ?_⟩
    · rw [hleaf, pos_iff, toNat_succ (by omega)]
      exact Nat.succ_pos _
    · show m - 1 + (st.keyCursor + 1).toNat = 258
      omega
    · rw [h.cursor_eq hkey hw] at hchar
      rw [List.length_append, List.length_singleton, hsuffix]
      exact (hpassed hw).succ hchar
  · have heq : st.keyCursor.toNat = key.length := by omega
    by_cases hks' : t₀.keySize = 255
    · -- the leaf has become internal, and the cursor starts over
      obtain ⟨hreached, hnode⟩ := hnext False False.elim False.elim
      have hleaf := congrArg TrieNode.suffixStart hnode
      have hkids := congrArg TrieNode.children hnode
      refine ⟨1, by omega, Going.wrapped hreached ?_ (fun d => ?_) hks' fun hw => ?_⟩
      · rw [hleaf, pos_iff, UInt8.toNat_add, hstart, heq, hkey, hks']
        decide
      · unfold kids
        rw [hkids]
        exact h.loose.bare _ _ h.at_cursor hl d
      · have hp := hpassed hw
        rw [← h.cursor_eq hkey hw, heq] at hp
        exact hp.runsPast hlen
    · -- the cursor is behind the terminator
      have hw : within := hw.resolve_right hks'
      have hp := hpassed hw
      rw [← h.cursor_eq hkey hw, heq] at hp
      have hsucc : (st.keyCursor + 1).toNat = st.keyCursor.toNat + 1 := toNat_succ (by omega)
      refine ⟨1, by omega, Going.past ?_ (by omega) (hp.runsPast hlen)⟩
      show key.length < (st.keyCursor + 1).toNat
      omega

/-- The pointer writes of the split. -/
theorem insertBody_split (hread : st.keyCursor.toNat ≤ key.length)
    (hl : 0 < (st.trie.node st.treeCursor).suffixStart)
    (hlen : key.length = (st.trie.node st.treeCursor).suffix.length)
    (hstart : (st.trie.node st.treeCursor).suffixStart.toNat = st.keyCursor.toNat)
    (hc : st.trie.kids st.treeCursor (TLB (key.getD st.keyCursor.toNat 0)) = none)
    (hchar : key.getD st.keyCursor.toNat 0
      ≠ (st.trie.node st.treeCursor).suffix.getD st.keyCursor.toNat 0) {c₀ : Slot}
    (hpos : 0 < st.keyCursor.toNat) (hslot : TLB (key.getD (st.keyCursor.toNat - 1) 0) = c₀) :
    insertBody ops key value st = .ok (.inr (value,
      ((((((st.trie.newNode (newLeaf key value st.keyCursor)).push st.treeCursor).newNode
        TrieNode.new).link (st.trie.heap.next + 1) (TLB (key.getD st.keyCursor.toNat 0))
          st.trie.heap.next).link (st.trie.heap.next + 1)
        (TLB ((st.trie.node st.treeCursor).suffix.getD st.keyCursor.toNat 0)) st.treeCursor).link
          st.parent c₀ (st.trie.heap.next + 1)), st.store)) := by
  have hread_s := charAt_le (hlen ▸ hread)
  unfold kids at hc
  unfold insertBody
  simp only [charAt_le hread, bind, Except.bind, hc, if_pos hl, charAt_pred hpos hread, hread_s,
    if_neg hchar, hslot, hstart]
  rfl

/--
The trie after the split. When the two symbols select one slot, the old leaf is in it and the new
one is lost.
-/
theorem Reached.split (h : Reached t₀ within key s₀ (p ++ [c]) st) (value : ρ)
    (hkey : key.length = t₀.keySize)
    (hl : 0 < (st.trie.node st.treeCursor).suffixStart)
    (hpar : st.trie.nodeAt p = some st.parent)
    (hkid : st.trie.kids st.parent c = some st.treeCursor)
    (hin : ¬ 0 < (st.trie.node st.parent).suffixStart)
    (hlt : st.keyCursor.toNat < key.length)
    (hne : within → (st.trie.node st.treeCursor).suffix ≠ key) {ck ct : Slot}
    (hck : ck = TLB (key.getD st.keyCursor.toNat 0))
    (hct : ct = TLB ((st.trie.node st.treeCursor).suffix.getD st.keyCursor.toNat 0))
    {t' : HandleTrie ρ}
    (ht : t' = ((((((st.trie.newNode (newLeaf key value st.keyCursor)).push st.treeCursor).newNode
      TrieNode.new).link (st.trie.heap.next + 1) ck st.trie.heap.next).link
        (st.trie.heap.next + 1) ct st.treeCursor).link st.parent c (st.trie.heap.next + 1))) :
    t'.keySize = t₀.keySize ∧ t'.Loose t₀.keySize within ∧ (within → Evolves key st.trie t' ∧
      (∀ k v, t'.Binds k v ↔ st.trie.Binds k v ∨ ck ≠ ct ∧ k = key ∧ v = value) ∧
      (ck = ct → t'.nodeAt ((p ++ [c]) ++ [ck]) = some st.treeCursor)) := by
  obtain ⟨hd, hnew⟩ := deepened_split h.loose hpar hin hkid hl ck ct
    (newLeaf key value st.keyCursor) fun _ => rfl
  replace hd : Deepened st.trie t' p st.parent st.treeCursor (st.trie.heap.next + 1) c ct
    (splitKids ck st.trie.heap.next ct st.treeCursor) := by rw [ht]; exact hd
  replace hnew : t'.node st.trie.heap.next = newLeaf key value st.keyCursor := by
    rw [ht]; exact hnew
  have hfits := h.loose.fits _ _ h.at_cursor
  have hks := t₀.keySize_le
  have hcursor := h.key_cursor
  have hpath : ∀ d : Slot, p ++ [c, d] = (p ++ [c]) ++ [d] := fun d => by simp
  have hpos := h.pushed_pos hkey hl hlt
  have hleaf : 0 < (newLeaf key value st.keyCursor).suffixStart := by
    rw [pos_iff, newLeaf_start hcursor]
    omega
  -- a slot beside the old leaf holds the new one
  have hother : ∀ d x, d ≠ ct → splitKids ck st.trie.heap.next ct st.treeCursor d = some x →
      d = ck ∧ x = st.trie.heap.next := fun d x hdt hdx =>
    ((splitKids_eq_some.mp hdx).resolve_right fun h => hdt h.1).2
  refine ⟨hd.keySize.trans h.keySize, hd.laid h.loose hd.toGraft.loose_parent ?_ ?_ ?_,
    fun hw => ⟨?_, fun k v => ?_, fun hcc => ?_⟩⟩
  · rw [hd.node]
    refine loose_inner fun hw => ?_
    rw [← h.cursor_eq hkey hw, ← hkey]
    exact hlt
  · rw [hd.pushed, hpath, hct]
    exact h.loose_pushed id hkey hl fun _ => hlt
  · intro d x hdt hdx
    obtain ⟨rfl, rfl⟩ := hother d x hdt hdx
    rw [hnew, hpath, hck]
    exact h.loose_newLeaf hkey fun _ => hlt
  · refine hd.evolves h.loose hpos (h.on_key hw) (hfits.path hl hw) (hfits.value hl) (hne hw) ?_
    intro d x hdt hdx
    rw [(hother d x hdt hdx).2, hnew]
    exact ⟨hleaf, rfl⟩
  · refine (hd.binds_iff h.loose hpos k v).trans (or_congr_right ⟨?_, ?_⟩)
    · rintro ⟨d, x, hdt, hdx, hk⟩
      obtain ⟨rfl, rfl⟩ := hother d x hdt hdx
      rw [hnew, holds_newLeaf hleaf] at hk
      exact ⟨hdt, hk⟩
    · rintro ⟨hcc, hk⟩
      refine ⟨ck, _, hcc, splitKids_eq_some.mpr (.inl ⟨hcc, rfl, rfl⟩), ?_⟩
      rw [hnew, holds_newLeaf hleaf]
      exact hk
  · rw [← hpath, hcc]
    exact hd.nodeAt_slot h.loose hd.kept

/-- The iteration at a leaf whose next symbol is another one. -/
theorem iterates_split (l₀ : t₀.Loose t₀.keySize within) (hkey : key.length = t₀.keySize)
    (hw : within ∨ t₀.keySize = 255)
    (h : Reached t₀ within key s₀ q st) (hl : 0 < (st.trie.node st.treeCursor).suffixStart)
    (hpassed : within → Passed t₀ key st.treeCursor (st.trie.node st.treeCursor).suffix q.length)
    (hc : st.trie.kids st.treeCursor (TLB (key.getD st.keyCursor.toNat 0)) = none)
    (hchar : key.getD st.keyCursor.toNat 0
      ≠ (st.trie.node st.treeCursor).suffix.getD st.keyCursor.toNat 0) :
    Iterates ops t₀ within key value s₀ m (insertBody ops key value st) := by
  have hread := h.in_key hkey hw
  have hfits := h.loose.fits q _ h.at_cursor
  have hlen := hkey.trans (hfits.size hl).symm
  obtain ⟨p, c₀, rfl, hpar, hkid, hin, hstart, hpos, hslot⟩ := h.at_leaf hl
  -- the terminators are the same, so the difference is within the keys
  have hlt : st.keyCursor.toNat < key.length := by
    refine Nat.lt_of_le_of_ne hread fun he => hchar ?_
    rw [he]
    simp [hlen]
  obtain ⟨hsize, hloose, hmap⟩ := h.split value hkey hl hpar hkid hin hlt
    (fun hw => (hpassed hw).ne) rfl rfl rfl
  rw [insertBody_split hread hl hlen hstart hc hchar hpos hslot]
  refine ⟨hsize, hloose.weaken False.elim, fun hw => ?_⟩
  obtain ⟨hev, hbinds, hat⟩ := hmap hw
  obtain ⟨hev₀, hbinds₀⟩ := h.kept hw
  obtain ⟨q₀, hq₀, hat₀, hl₀, hs₀, hle, -, hsame⟩ := hpassed hw
  have hi : st.keyCursor.toNat = (p ++ [c₀]).length := h.cursor_eq hkey hw
  rw [h.store]
  refine Returns.added (TLB (key.getD st.keyCursor.toNat 0)
    ≠ TLB ((st.trie.node st.treeCursor).suffix.getD st.keyCursor.toNat 0)) ?_ (hev₀.trans hev)
    (fun k v => ?_) ?_ ?_
  · simpa [hw] using hloose
  · rw [hbinds, hbinds₀]
  · intro q a hq ha hla hdrop
    -- the leaf is the one that the cursor met
    obtain rfl := l₀.leaf_on_path ha hla hq hat₀ hl₀ hq₀
    obtain rfl := Option.some.inj (ha.symm.trans hat₀)
    rw [hs₀] at hdrop
    exact hchar (getD_of_drop_eq hdrop (by omega))
  · intro hslots
    have hslots := not_not.mp hslots
    have hlt' : (p ++ [c₀]).length < key.length := by omega
    have hnext := code_take_of_prefix (h.on_key hw) hlt'
    have hnext' := code_take_of_prefix (hfits.path hl hw) (by omega)
    rw [← hi] at hnext hnext'
    refine ⟨q₀, st.treeCursor, st.keyCursor.toNat, hq₀, hat₀, hl₀, by omega, hlt, ?_, ?_, ?_⟩
    · rw [hs₀]
      exact hchar
    · rw [hs₀, hnext, hnext', hslots]
    · rw [hnext]
      exact hat hslots

/-- **The step lemma of `insert`.** -/
theorem insertBody_iterates (l₀ : t₀.Loose t₀.keySize within) (hkey : key.length = t₀.keySize)
    (hw : within ∨ t₀.keySize = 255) (hg : Going t₀ within key s₀ m st) :
    Iterates ops t₀ within key value s₀ m (insertBody ops key value st) := by
  cases hg with
  | descending h hin htrie hm =>
    cases hc : st.trie.kids st.treeCursor (TLB (key.getD st.keyCursor.toNat 0)) with
    | none => exact iterates_attach hkey hw h hin htrie hc
    | some a =>
      by_cases hl : 0 < (st.trie.node a).suffixStart
      · exact iterates_leaf hkey hw h hin htrie hm hc hl
      · exact iterates_inner hkey hw h hin htrie hm hc hl
  | atLeaf h hl hm hpassed =>
    have hc := h.loose.bare _ _ h.at_cursor hl (TLB (key.getD st.keyCursor.toNat 0))
    by_cases hchar : key.getD st.keyCursor.toNat 0
        = (st.trie.node st.treeCursor).suffix.getD st.keyCursor.toNat 0
    · exact iterates_push hkey hw h hl hm hpassed hc hchar
    · exact iterates_split l₀ hkey hw h hl hpassed hc hchar
  | past hk hks hruns =>
    have hbody : insertBody ops key value st = .error .outOfBounds := by
      unfold insertBody
      simp only [charAt_past hk, bind, Except.bind]
    rw [hbody]
    exact ⟨rfl, hks, hruns⟩
  | wrapped h hin hbare hks hruns =>
    obtain ⟨t', hbody, hsize, hloose, -⟩ := insertBody_attach ops value hkey h
      hin False.elim (h.in_key hkey (.inr hks)) (hbare _)
    rw [hbody]
    exact ⟨hsize, hloose, fun hw => Returns.wrapped hks (hruns hw)⟩

end Body

/-- The state in which the loop of `insert` starts. -/
theorem Going.start {within : Prop} (l : t.Loose t.keySize within) {key : Key} {s : σ} :
    Going t within key s (t.heap.next + 260)
      { trie := t, store := s, treeCursor := t.root, parent := t.root, keyCursor := 0 } :=
  Going.descending (q := [])
    { loose := l
      keySize := rfl
      store := rfl
      kept := fun _ => ⟨Evolves.refl key t, fun _ _ => Iff.rfl⟩
      at_cursor := nodeAt_nil t
      key_cursor := rfl
      on_key := fun _ => List.nil_prefix
      at_parent := fun p c h => by simp at h }
    l.root_inner rfl rfl

/--
**How `insert` ends**, for any key of the right length: it never runs out of iterations, and the
only error is the read behind the terminator of the key.
-/
theorem insert_ends (ops : TrieValue ρ σ) {within : Prop} (l : t.Loose t.keySize within)
    (hw : within ∨ t.keySize = 255) {key : Key} (hkey : key.length = t.keySize) (value : ρ)
    (s : σ) : Ends ops t within key value s (t.insert ops key value s) := by
  have hloop : Ends ops t within key value s (loop .diverges (insertBody ops key value)
      (t.heap.next + loopBound)
      { trie := t, store := s, treeCursor := t.root, parent := t.root, keyCursor := 0 }) :=
    loop_ends (fun m st hg => insertBody_iterates l hkey hw hg) _ _ _ (Going.start l)
      (by unfold loopBound; omega)
  unfold insert checkSize
  rw [if_neg (by simpa using hkey)]
  exact hloop

/-- What a call that completed leaves is within the keys again, or the cursor has wrapped. -/
theorem Returns.loose {ops : TrieValue ρ σ} {value : ρ} {s : σ} {r : ρ × HandleTrie ρ × σ}
    {key : Key} (hr : Returns ops t key value s r) (l : t.Loose t.keySize True) (hks : t.keySize ≠ 255) :
    r.2.1.Loose t.keySize True := by
  cases hr with
  | merged => exact l
  | added _ loose => exact loose
  | wrapped hsize => exact absurd hsize hks

/-! ## Handles -/

variable {key : Key}

/-- The path of the first `i + 1` symbols of a key. -/
theorem code_take_succ {key : Key} {i : Nat} (hi : i < key.length) :
    (code key).take (i + 1) = (code key).take i ++ [TLB key[i]] := by
  rw [List.take_succ_eq_append_getElem (by simpa using hi)]
  simp [code]

theorem Wf.loose (wf : t.Wf) : t.Loose t.keySize True where
  root_inner := wf.root_inner
  tree := wf.tree
  allocated := wf.allocated
  bare := wf.laid.bare
  fits := fun p a ha =>
    { start := fun hl => by
        have hlen := wf.key_length ha
        have hks := t.keySize_le
        rw [(wf.fits p a ha).start hl, Nat.mod_eq_of_lt (by omega)]
      size := fun hl => ((wf.fits p a ha).key hl).1
      value := (wf.fits p a ha).value
      path := fun hl _ => (wf.fits p a ha).path hl
      inner_depth := fun hn _ => (wf.fits p a ha).inner_depth hn
      inner_value := fun hn _ => (wf.fits p a ha).inner_value hn }

/-- The only node of a new trie is its root. -/
theorem nodeAt_new {ks : Nat} {h0 : 0 < ks} {h1 : ks ≤ 255} {p : List Slot} {a : Nat}
    (h : (new ks h0 h1 : HandleTrie ρ).nodeAt p = some a) : p = [] ∧ a = 0 :=
  walk_bare (fun _ => rfl) h

/-- **A new trie is well formed.** -/
theorem new_wf {ks : Nat} {h0 : 0 < ks} {h1 : ks ≤ 255} : (new ks h0 h1 : HandleTrie ρ).Wf := by
  have hin : ¬ 0 < ((new ks h0 h1 : HandleTrie ρ).node 0).suffixStart := by
    simp [new, node, Pool.alloc, Pool.empty, TrieNode.new]
  refine ⟨hin, fun p q a hp hq => ?_, fun p a h => ?_, fun p a h => ?_⟩
  · rw [(nodeAt_new hp).1, (nodeAt_new hq).1]
  · rw [(nodeAt_new h).2]
    exact Nat.one_pos
  · obtain ⟨rfl, rfl⟩ := nodeAt_new h
    exact ⟨fun hl => absurd hl hin, fun hl => absurd hl hin, fun hl => absurd hl hin,
      fun hl => absurd hl hin, fun hl => absurd hl hin, fun _ => h0, fun _ => rfl⟩

/-- Within the keys a node is no deeper than they are long. -/
theorem Loose.length_le {ks : Nat} (l : t.Loose ks True) (ha : t.nodeAt p = some a) :
    p.length ≤ ks := by
  by_cases hl : 0 < (t.node a).suffixStart
  · have hpath := ((l.fits p a ha).path hl trivial).length_le
    rwa [code_length, (l.fits p a ha).size hl] at hpath
  · exact Nat.le_of_lt ((l.fits p a ha).inner_depth hl trivial)

/-- A trie whose keys are handles is one of handles. -/
theorem Loose.wf (l : t.Loose t.keySize True) (hv : ∀ k v, t.Binds k v → ValidKey t.keySize k) :
    t.Wf where
  root_inner := l.root_inner
  tree := l.tree
  allocated := l.allocated
  fits := fun p a ha =>
    { start := fun hl => by
        have hlen := l.length_le ha
        have hks := t.keySize_le
        rw [(l.fits p a ha).start hl, Nat.mod_eq_of_lt (by omega)]
      key := fun hl => by
        obtain ⟨v, hval⟩ := (l.fits p a ha).value hl
        exact hv _ v ⟨p, a, ha, hl, rfl, hval⟩
      path := fun hl => (l.fits p a ha).path hl trivial
      value := (l.fits p a ha).value
      bare := l.bare p a ha
      inner_depth := fun hn => (l.fits p a ha).inner_depth hn trivial
      inner_value := fun hn => (l.fits p a ha).inner_value hn trivial }

/-- What `insert` returns: the map with the key merged, if it was there, or bound. -/
structure Inserted (ops : TrieValue ρ σ) (t₀ : HandleTrie ρ) (key : Key) (value : ρ) (s₀ : σ)
    (r : ρ × HandleTrie ρ × σ) : Prop where
  wf : r.2.1.Wf
  keySize : r.2.1.keySize = t₀.keySize
  result : (t₀.Binds key r.1 ∧ r.2.2 = ops.delete value (ops.merge r.1 value s₀) ∧
      ∀ k v, r.2.1.Binds k v ↔ t₀.Binds k v) ∨
    ((∀ v, ¬ t₀.Binds key v) ∧ r.1 = value ∧ r.2.2 = s₀ ∧
      ∀ k v, r.2.1.Binds k v ↔ t₀.Binds k v ∨ (k = key ∧ v = value))

/-- No key is bound when its path ends at an empty slot of an internal node. -/
theorem Wf.unbound_of_slot (wf : t.Wf) {i : Nat} (hi : i < key.length)
    (ha : t.nodeAt ((code key).take i) = some a) (hin : ¬ 0 < (t.node a).suffixStart)
    (hc : t.kids a (TLB key[i]) = none) (v : ρ) : ¬ t.Binds key v := by
  intro hb
  obtain ⟨d, b, hd, hpath⟩ := wf.child_on_path ha (List.take_prefix i (code key)) hin hb
  have hdi : d = TLB key[i] := by
    have htake := List.prefix_iff_eq_take.mp hpath
    rw [List.length_append, length_code_take (Nat.le_of_lt hi), List.length_singleton,
      code_take_succ hi] at htake
    simpa using htake
  rw [hdi, hc] at hd
  cases hd

/-- A handle does not run past its end: it is told apart from another one by its path. -/
theorem Wf.not_runsPast (wf : t.Wf) (hkey : ValidKey t.keySize key) : ¬ t.RunsPast key := by
  rintro ⟨q, a, hq, ha, hl, hne, hrest⟩
  have hpath := List.prefix_iff_eq_take.mp hq
  have htake := wf.leaf_take hkey (wf.key_length ha) (hpath ▸ ha) hl
  refine hne ?_
  rw [(drop_eq_iff htake).mp hrest]

/-- A handle is not lost: its symbol is in another slot than that of the leaf it splits. -/
theorem Wf.not_loses (wf : t.Wf) (hkey : ValidKey t.keySize key) : ¬ Loses t t' key := by
  rintro ⟨q, a, i, -, ha, hl, -, hi, hne, hcode, -⟩
  have htake := take_eq_of_code hkey.2 ((wf.fits q a ha).key hl).2 hcode
  refine hne ?_
  have hi' := congrArg (fun s => s.getD i 0) htake
  simpa [List.getD_eq_getElem?_getD, List.getElem?_take] using hi'

/-- **What a call that completed did on handles.** -/
theorem Returns.inserted {ops : TrieValue ρ σ} (wf : t.Wf) (hkey : ValidKey t.keySize key)
    {value : ρ} {s : σ} {r : ρ × HandleTrie ρ × σ} (hsize : r.2.1.keySize = t.keySize)
    (hr : Returns ops t key value s r) : Inserted ops t key value s r ∧ Evolves key t r.2.1 := by
  cases hr with
  | merged hq ha hl hsame hv =>
    rename_i q a v
    have hpath := List.prefix_iff_eq_take.mp hq
    have htake := wf.leaf_take hkey (wf.key_length ha) (hpath ▸ ha) hl
    have htake' := congrArg (List.take (q.length - 1)) htake
    rw [List.take_take, List.take_take, Nat.min_eq_left (Nat.sub_le _ _)] at htake'
    have hb : t.Binds key v := ⟨q, a, ha, hl, (drop_eq_iff htake').mp hsame, hv⟩
    exact ⟨⟨wf, rfl, .inl ⟨hb, rfl, fun _ _ => Iff.rfl⟩⟩, Evolves.refl key t⟩
  | added stored loose evolves binds differs lost =>
    have hstored : stored := by
      by_contra hn
      exact wf.not_loses hkey (lost hn)
    have hbinds : ∀ k v, _ ↔ t.Binds k v ∨ k = key ∧ v = value := fun k v =>
      (binds k v).trans (or_congr_right (and_iff_right hstored))
    refine ⟨⟨?_, hsize, .inr ⟨fun v hb => ?_, rfl, rfl, hbinds⟩⟩, evolves⟩
    · rw [← hsize] at loose
      refine loose.wf fun k v hb => ?_
      rw [hsize]
      rcases (hbinds k v).mp hb with hb | ⟨rfl, -⟩
      · exact wf.valid_of_binds hb
      · exact hkey
    · obtain ⟨q, a, ha, hl, rfl, -⟩ := hb
      exact differs q a ((wf.fits q a ha).path hl) ha hl rfl
  | wrapped hsize hruns => exact absurd hruns (wf.not_runsPast hkey)

/--
**`insert` is total on handles and updates the map.**

No string is read out of bounds, no NULL pointer is followed and the loop ends. The trie
only grows by what `Evolves` says.
-/
theorem insert_total (ops : TrieValue ρ σ) (wf : t.Wf) {key : Key}
    (hkey : ValidKey t.keySize key) (value : ρ) (s : σ) :
    ∃ r, t.insert ops key value s = .ok r ∧ Inserted ops t key value s r ∧
      Evolves key t r.2.1 := by
  have hends := insert_ends ops wf.loose (.inl trivial) hkey.1 value s
  rcases hrun : t.insert ops key value s with e | r
  · rw [hrun] at hends
    exact absurd hends.2.2 (wf.not_runsPast hkey)
  · rw [hrun] at hends
    obtain ⟨hsize, -, hret⟩ := hends
    exact ⟨r, rfl, (hret trivial).inserted wf hkey hsize⟩

end HandleTrie

end AttentionBroker
