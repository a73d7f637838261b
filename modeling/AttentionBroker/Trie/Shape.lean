import Mathlib.Data.List.Infix
import AttentionBroker.Infra.Walk
import AttentionBroker.Trie.Basic

/-!
# The shape of a trie

`Wf` is the representation invariant: the nodes form a tree below the root, the path to a
leaf spells the start of its key, and its depth is its `suffixStart`. It holds between
any two iterations of `insert`, not only between calls.

`Binds k v` is the map the trie stands for. `Graft` says what one pointer write of
`insert` does to the tree, and `Graft.wf` and `Graft.binds` carry the invariant and the
map across it.
-/

namespace AttentionBroker

open Infra

/-! ## Hexadecimal symbols and slots -/

/-- The slots a key selects, from the root down. -/
def code (k : Key) : List Slot := k.map TLB

@[simp] theorem code_length (k : Key) : (code k).length = k.length := List.length_map ..

theorem code_take (k : Key) (n : Nat) : (code k).take n = code (k.take n) :=
  List.map_take.symm

theorem TLB_digit {b : UInt8} (h : IsHex b) :
    ((TLB b).val : Nat) = if b.toNat ≤ 0x39 then b.toNat - 0x30 else b.toNat - 0x61 + 10 := by
  unfold TLB
  rcases h with h | h
  · rw [if_pos h, if_pos h.2]
    exact Nat.mod_eq_of_lt (by omega)
  · rw [if_neg (by omega), if_pos h, if_neg (by omega)]
    exact Nat.mod_eq_of_lt (by omega)

/-- On `0-9a-f` the order of the slots is the order of the bytes. -/
theorem TLB_lt_iff {a b : UInt8} (ha : IsHex a) (hb : IsHex b) : TLB a < TLB b ↔ a < b := by
  rw [Fin.lt_def, TLB_digit ha, TLB_digit hb, UInt8.lt_iff_toNat_lt]
  unfold IsHex at ha hb
  split <;> split <;> omega

/-- `TLB` tells the symbols `0-9a-f` apart. -/
theorem TLB_inj {a b : UInt8} (ha : IsHex a) (hb : IsHex b) (h : TLB a = TLB b) : a = b := by
  have h' : ((TLB a).val : Nat) = (TLB b).val := by rw [h]
  rw [TLB_digit ha, TLB_digit hb] at h'
  refine UInt8.toNat_inj.mp ?_
  unfold IsHex at ha hb
  split at h' <;> split at h' <;> omega

/-- The lowercase symbol of a slot. -/
def symbolOf (c : Slot) : UInt8 :=
  if c.val < 10 then UInt8.ofNat (48 + c.val) else UInt8.ofNat (87 + c.val)

theorem symbolOf_spec : ∀ c : Slot, IsHex (symbolOf c) ∧ TLB (symbolOf c) = c := by decide

theorem code_inj : ∀ {k k' : Key}, (∀ b ∈ k, IsHex b) → (∀ b ∈ k', IsHex b) →
    code k = code k' → k = k'
  | [], [], _, _, _ => rfl
  | [], _ :: _, _, _, h => by simp [code] at h
  | _ :: _, [], _, _, h => by simp [code] at h
  | a :: k, b :: k', hk, hk', h => by
    simp only [code, List.map_cons, List.cons.injEq] at h
    rw [TLB_inj (hk a List.mem_cons_self) (hk' b List.mem_cons_self) h.1,
      code_inj (fun x hx => hk x (List.mem_cons_of_mem _ hx))
        (fun x hx => hk' x (List.mem_cons_of_mem _ hx)) h.2]

/-- Two handles whose paths agree up to `n` agree up to `n`. -/
theorem take_eq_of_code {k k' : Key} {n : Nat} (hk : ∀ b ∈ k, IsHex b)
    (hk' : ∀ b ∈ k', IsHex b) (h : (code k).take n = (code k').take n) :
    k.take n = k'.take n := by
  rw [code_take, code_take] at h
  exact code_inj (fun b hb => hk b (List.mem_of_mem_take hb))
    (fun b hb => hk' b (List.mem_of_mem_take hb)) h

/-! ## Reading a string -/

/-- The terminator may be read too. -/
theorem charAt_le {s : Key} {i : Nat} (h : i ≤ s.length) :
    charAt s (i : Int) = .ok (s.getD i 0) :=
  if_pos h

theorem charAt_past {s : Key} {i : Nat} (h : s.length < i) :
    charAt s (i : Int) = .error .outOfBounds :=
  if_neg (Nat.not_le.mpr h)

theorem charAt_lt {s : Key} {i : Nat} (h : i < s.length) : charAt s (i : Int) = .ok s[i] := by
  rw [charAt_le (Nat.le_of_lt h), List.getD_eq_getElem?_getD, List.getElem?_eq_getElem h,
    Option.getD_some]

theorem charAt_pred {s : Key} {i : Nat} (h0 : 0 < i) (h : i ≤ s.length) :
    charAt s ((i : Int) - 1) = .ok (s.getD (i - 1) 0) := by
  rw [show ((i : Int) - 1) = ((i - 1 : Nat) : Int) by omega]
  exact charAt_le (by omega)

/-- A path along a key goes on with the slot of the next symbol. -/
theorem code_take_of_prefix {k : Key} {p : List Slot} (hp : p <+: code k)
    (hlt : p.length < k.length) :
    (code k).take (p.length + 1) = p ++ [TLB (k.getD p.length 0)] := by
  rw [List.take_succ_eq_append_getElem (by rwa [code_length]), ← List.prefix_iff_eq_take.mp hp]
  simp [code, hlt]

theorem code_snoc {k : Key} {p : List Slot} (hp : p <+: code k) (hlt : p.length < k.length) :
    p ++ [TLB (k.getD p.length 0)] <+: code k := by
  rw [← code_take_of_prefix hp hlt]
  exact List.take_prefix _ _

/-- Keys that end in the same way from `n` on have the same symbols there. -/
theorem getD_of_drop_eq {k k' : Key} {n i : Nat} (h : k.drop n = k'.drop n) (hi : n ≤ i) :
    k.getD i 0 = k'.getD i 0 := by
  have hi' := congrArg (fun s => s.getD (i - n) 0) h
  simpa [List.getD_eq_getElem?_getD, List.getElem?_drop, Nat.add_sub_cancel' hi] using hi'

/-- Keys that go on in the same way up to their ends end in the same way. -/
theorem drop_eq_of_getD {k k' : Key} (hlen : k.length = k'.length) {n : Nat}
    (h : ∀ j, n ≤ j → j < k.length → k.getD j 0 = k'.getD j 0) : k.drop n = k'.drop n := by
  refine List.ext_getElem (by simp [hlen]) fun j hj hj' => ?_
  rw [List.length_drop] at hj hj'
  have hjn := h (n + j) (Nat.le_add_right n j) (by omega)
  have hk : n + j < k.length := by omega
  have hk' : n + j < k'.length := by omega
  simpa [hk, hk'] using hjn

/-- The matching loop answers whether the rest of the two keys is the same. -/
theorem matchFrom_eq {key suffix : Key} (hlen : key.length = suffix.length) :
    ∀ (n i : Nat), i + n = key.length →
      HandleTrie.matchFrom key suffix i n = .ok (decide (key.drop i = suffix.drop i)) := by
  intro n
  induction n with
  | zero =>
    intro i hi
    rw [HandleTrie.matchFrom, List.drop_of_length_le (by omega), List.drop_of_length_le (by omega)]
    simp
  | succ n ih =>
    intro i hi
    have hik : i < key.length := by omega
    have his : i < suffix.length := by omega
    rw [HandleTrie.matchFrom, charAt_lt hik, charAt_lt his, List.drop_eq_getElem_cons hik,
      List.drop_eq_getElem_cons his]
    show (if key[i] ≠ suffix[i] then Except.ok false
      else HandleTrie.matchFrom key suffix (i + 1) n) = _
    by_cases h : key[i] = suffix[i]
    · rw [if_neg (by simpa using h), ih (i + 1) (by omega), h]
      simp only [List.cons.injEq, true_and]
    · rw [if_pos h]
      simp only [List.cons.injEq, h, false_and, decide_false]

/-- Keys that agree up to `n` are equal when the rest is. -/
theorem drop_eq_iff {key suffix : Key} {n : Nat} (h : key.take n = suffix.take n) :
    key.drop n = suffix.drop n ↔ suffix = key := by
  constructor
  · intro hd
    rw [← List.take_append_drop n key, ← List.take_append_drop n suffix, h, hd]
  · intro he
    rw [he]

theorem length_code_take {k : Key} {n : Nat} (h : n ≤ k.length) :
    ((code k).take n).length = n := by
  rw [List.length_take, code_length, Nat.min_eq_left h]

/-! ## The tree below the root -/

namespace HandleTrie

variable {ρ σ δ : Type} {t t' : HandleTrie ρ} {p q : List Slot} {a b : Nat} {c : Slot}

/-- The child in a slot. -/
def kids (t : HandleTrie ρ) (a : Nat) (c : Slot) : Option Nat := (t.node a).children c

/-- The node at a path from the root. -/
def nodeAt (t : HandleTrie ρ) (p : List Slot) : Option Nat := walk t.kids t.root p

@[simp] theorem nodeAt_nil (t : HandleTrie ρ) : t.nodeAt [] = some t.root := rfl

theorem nodeAt_snoc (t : HandleTrie ρ) (p : List Slot) (c : Slot) :
    t.nodeAt (p ++ [c]) = (t.nodeAt p).bind fun a => t.kids a c :=
  walk_snoc t.root p c

theorem nodeAt_kid (ha : t.nodeAt p = some a) (hc : t.kids a c = some b) :
    t.nodeAt (p ++ [c]) = some b := by
  rw [nodeAt_snoc, ha, Option.bind_some, hc]

/-- A path that goes on below a node goes through one of its children. -/
theorem kid_of_nodeAt {x : Nat} {r : List Slot} (ha : t.nodeAt p = some a)
    (hx : t.nodeAt (p ++ c :: r) = some x) :
    ∃ b, t.kids a c = some b ∧ t.nodeAt (p ++ [c]) = some b := by
  have hx' : t.nodeAt ((p ++ [c]) ++ r) = some x := by simpa using hx
  obtain ⟨b, hb, -⟩ := walk_prefix hx'
  have hkid : t.nodeAt (p ++ [c]) = some b := hb
  rw [nodeAt_snoc, ha, Option.bind_some] at hkid
  exact ⟨b, hkid, hb⟩

end HandleTrie

/-- A node that is a leaf and carries this binding. -/
def TrieNode.Holds {ρ : Type} (n : TrieNode ρ) (k : Key) (v : ρ) : Prop :=
  0 < n.suffixStart ∧ n.suffix = k ∧ n.value = some v

/-- What a node at path `p` has to be, in a trie of keys of this size. -/
structure TrieNode.Fits {ρ : Type} (n : TrieNode ρ) (keySize : Nat) (p : List Slot) : Prop where
  start : 0 < n.suffixStart → n.suffixStart.toNat = p.length
  key : 0 < n.suffixStart → ValidKey keySize n.suffix
  path : 0 < n.suffixStart → p <+: code n.suffix
  value : 0 < n.suffixStart → ∃ v, n.value = some v
  bare : 0 < n.suffixStart → ∀ c, n.children c = none
  inner_depth : ¬ 0 < n.suffixStart → p.length < keySize
  inner_value : ¬ 0 < n.suffixStart → n.value = none

namespace HandleTrie

variable {ρ σ δ : Type} {t t' : HandleTrie ρ} {p q : List Slot} {a b : Nat} {c : Slot}

/-- **The representation invariant.** -/
structure Wf (t : HandleTrie ρ) : Prop where
  root_inner : ¬ 0 < (t.node t.root).suffixStart
  tree : TreeLike t.kids t.root
  allocated : ∀ p a, t.nodeAt p = some a → a < t.heap.next
  fits : ∀ p a, t.nodeAt p = some a → (t.node a).Fits t.keySize p

/-- The map the trie stands for. -/
def Binds (t : HandleTrie ρ) (k : Key) (v : ρ) : Prop :=
  ∃ p a, t.nodeAt p = some a ∧ (t.node a).Holds k v

/-- The part of the invariant that is about the pointers: a tree whose nodes fit their paths. -/
structure Laid (Fit : TrieNode ρ → List Slot → Prop) (t : HandleTrie ρ) : Prop where
  root_inner : ¬ 0 < (t.node t.root).suffixStart
  tree : TreeLike t.kids t.root
  allocated : ∀ p a, t.nodeAt p = some a → a < t.heap.next
  bare : ∀ p a, t.nodeAt p = some a → 0 < (t.node a).suffixStart → ∀ c, t.kids a c = none
  fits : ∀ p a, t.nodeAt p = some a → Fit (t.node a) p

theorem Wf.laid (wf : t.Wf) : t.Laid fun n p => n.Fits t.keySize p where
  root_inner := wf.root_inner
  tree := wf.tree
  allocated := wf.allocated
  bare := fun p a ha hl => (wf.fits p a ha).bare hl
  fits := wf.fits

theorem Laid.wf (l : t.Laid fun n p => n.Fits t.keySize p) : t.Wf :=
  ⟨l.root_inner, l.tree, l.allocated, l.fits⟩

section Laid

variable {Fit : TrieNode ρ → List Slot → Prop}

/-- Nothing is below a leaf. -/
theorem Laid.below_leaf (l : t.Laid Fit) (ha : t.nodeAt p = some a)
    (hl : 0 < (t.node a).suffixStart) (hq : t.nodeAt q = some b) (hpq : p <+: q) : q = p := by
  obtain ⟨r, rfl⟩ := hpq
  by_cases hr : r = []
  · rw [hr, List.append_nil]
  · have hnone : t.nodeAt (p ++ r) = none := walk_below_none ha (l.bare p a ha hl) hr
    rw [hnone] at hq
    exact absurd hq (by simp)

/-- Along a path there is at most one leaf. -/
theorem Laid.leaf_on_path (l : t.Laid Fit) {r : List Slot} (ha : t.nodeAt p = some a)
    (hla : 0 < (t.node a).suffixStart) (hpr : p <+: r) (hb : t.nodeAt q = some b)
    (hlb : 0 < (t.node b).suffixStart) (hqr : q <+: r) : p = q := by
  rcases List.prefix_or_prefix_of_prefix hpr hqr with h | h
  · exact (l.below_leaf ha hla hb h).symm
  · exact l.below_leaf hb hlb ha h

end Laid

theorem Wf.key_length (wf : t.Wf) (h : t.nodeAt p = some a) : p.length ≤ t.keySize := by
  by_cases hl : 0 < (t.node a).suffixStart
  · have hk := ((wf.fits p a h).key hl).1
    have hp := ((wf.fits p a h).path hl).length_le
    rw [code_length, hk] at hp
    exact hp
  · exact Nat.le_of_lt ((wf.fits p a h).inner_depth hl)

/-- A leaf where `i` symbols of a key lead has a key whose path begins in the same way. -/
theorem Wf.leaf_code (wf : t.Wf) {k : Key} {i : Nat} (hi : i ≤ k.length)
    (ha : t.nodeAt ((code k).take i) = some a) (hl : 0 < (t.node a).suffixStart) :
    (code k).take i = (code (t.node a).suffix).take i := by
  have hpath := List.prefix_iff_eq_take.mp ((wf.fits _ a ha).path hl)
  rwa [length_code_take hi] at hpath

/-- If the symbols are those of a handle, the key begins with them. -/
theorem Wf.leaf_take (wf : t.Wf) {k : Key} {i : Nat} (hk : ValidKey t.keySize k)
    (hi : i ≤ t.keySize) (ha : t.nodeAt ((code k).take i) = some a)
    (hl : 0 < (t.node a).suffixStart) : k.take i = (t.node a).suffix.take i :=
  take_eq_of_code hk.2 ((wf.fits _ a ha).key hl).2 (wf.leaf_code (hk.1.symm ▸ hi) ha hl)

/-- Along the path of a key there is at most one leaf. -/
theorem Wf.leaf_on_path (wf : t.Wf) {k : Key} (ha : t.nodeAt p = some a)
    (hla : 0 < (t.node a).suffixStart) (hpk : p <+: code k) (hb : t.nodeAt q = some b)
    (hlb : 0 < (t.node b).suffixStart) (hqk : q <+: code k) : p = q :=
  wf.laid.leaf_on_path ha hla hpk hb hlb hqk

/-- A leaf on the path of a key that is bound is the leaf of that key. -/
theorem Wf.suffix_of_binds (wf : t.Wf) {k : Key} {v : ρ} (ha : t.nodeAt p = some a)
    (hp : p <+: code k) (hl : 0 < (t.node a).suffixStart) (hb : t.Binds k v) :
    (t.node a).suffix = k := by
  obtain ⟨q, x, hx, hlx, rfl, -⟩ := hb
  have hpq := wf.leaf_on_path ha hl hp hx hlx ((wf.fits q x hx).path hlx)
  subst hpq
  rw [Option.some.inj (ha.symm.trans hx)]

/-- The path of a key that is bound goes on below an internal node. -/
theorem Wf.child_on_path (wf : t.Wf) {k : Key} {v : ρ} (ha : t.nodeAt p = some a)
    (hp : p <+: code k) (hin : ¬ 0 < (t.node a).suffixStart) (hb : t.Binds k v) :
    ∃ c b, t.kids a c = some b ∧ p ++ [c] <+: code k := by
  obtain ⟨q, x, hx, hl, rfl, -⟩ := hb
  have hq := (wf.fits q x hx).path hl
  have hnot : ¬ q <+: p := fun hqp => by
    rw [wf.laid.below_leaf hx hl ha hqp, hx] at ha
    exact hin (Option.some.inj ha ▸ hl)
  obtain ⟨r, rfl⟩ := (List.prefix_or_prefix_of_prefix hp hq).resolve_right hnot
  cases r with
  | nil => exact absurd (by simp) hnot
  | cons c r =>
    obtain ⟨b, hkid, -⟩ := kid_of_nodeAt ha hx
    exact ⟨c, b, hkid, List.IsPrefix.trans ⟨r, by simp⟩ hq⟩

/-- A key is bound to at most one value, at one place. -/
theorem Wf.holds_unique (wf : t.Wf) {k : Key} {v w : ρ} (ha : t.nodeAt p = some a)
    (hv : (t.node a).Holds k v) (hb : t.nodeAt q = some b) (hw : (t.node b).Holds k w) :
    p = q ∧ a = b ∧ v = w := by
  have hpk : p <+: code k := hv.2.1 ▸ (wf.fits p a ha).path hv.1
  have hqk : q <+: code k := hw.2.1 ▸ (wf.fits q b hb).path hw.1
  have hpq : p = q := wf.leaf_on_path ha hv.1 hpk hb hw.1 hqk
  subst hpq
  have hab : a = b := Option.some.inj (ha.symm.trans hb)
  subst hab
  exact ⟨rfl, rfl, Option.some.inj (hv.2.2.symm.trans hw.2.2)⟩

theorem Wf.binds_unique (wf : t.Wf) {k : Key} {v w : ρ} (hv : t.Binds k v)
    (hw : t.Binds k w) : v = w := by
  obtain ⟨p, a, ha, hv⟩ := hv
  obtain ⟨q, b, hb, hw⟩ := hw
  exact (wf.holds_unique ha hv hb hw).2.2

theorem Wf.valid_of_binds (wf : t.Wf) {k : Key} {v : ρ} (h : t.Binds k v) :
    ValidKey t.keySize k := by
  obtain ⟨p, a, ha, hl, hk, -⟩ := h
  exact hk ▸ (wf.fits p a ha).key hl

/-! ## One pointer write -/

/--
`t'` is `t` after the slot `c` of the internal node `a` at path `p` was written.

The node that was in the slot may have changed its `suffixStart`, and new nodes may have
been allocated. The rest is as it was.
-/
structure Graft (t t' : HandleTrie ρ) (p : List Slot) (a : Nat) (c : Slot) : Prop where
  root : t'.root = t.root
  keySize : t'.keySize = t.keySize
  next : t.heap.next ≤ t'.heap.next
  parent : t.nodeAt p = some a
  inner : ¬ 0 < (t.node a).suffixStart
  slots : ∀ d, d ≠ c → t'.kids a d = t.kids a d
  parent_start : (t'.node a).suffixStart = (t.node a).suffixStart
  parent_value : (t'.node a).value = (t.node a).value
  frame : ∀ x, x < t.heap.next → x ≠ a → t.kids a c ≠ some x → t'.node x = t.node x
  frame_kids : ∀ x, x < t.heap.next → x ≠ a → t'.kids x = t.kids x

namespace Graft

theorem nodeAt_child (g : Graft t t' p a c) : t.nodeAt (p ++ [c]) = t.kids a c := by
  rw [nodeAt_snoc, g.parent, Option.bind_some]

variable {Fit : TrieNode ρ → List Slot → Prop} (g : Graft t t' p a c) (l : t.Laid Fit)
include g l

/-- Walks that avoid the written slot are what they were. -/
theorem nodeAt_of_not_prefix (hq : ¬ (p ++ [c]) <+: q) : t'.nodeAt q = t.nodeAt q := by
  unfold nodeAt
  rw [g.root]
  exact walk_graft l.tree g.parent g.slots
    (fun q x hx hxa => g.frame_kids x (l.allocated q x hx) hxa) q hq

theorem nodeAt_below (r : List Slot) :
    t'.nodeAt (p ++ c :: r) = (t'.kids a c).bind fun b => walk t'.kids b r := by
  unfold nodeAt
  rw [g.root]
  exact walk_graft_below l.tree g.parent g.slots
    (fun q x hx hxa => g.frame_kids x (l.allocated q x hx) hxa) r

/-- A node that is not below the written slot kept its data. -/
theorem node_of_not_prefix {x : Nat} (hx : t.nodeAt q = some x) (hq : ¬ (p ++ [c]) <+: q)
    (hxa : x ≠ a) : t'.node x = t.node x := by
  refine g.frame x (l.allocated q x hx) hxa fun h => hq ?_
  rw [l.tree q (p ++ [c]) x hx (g.nodeAt_child.trans h)]

/--
**The tree survives a pointer write** when the nodes now below the slot fit there, do not
repeat, and are either new or the node that was in the slot.
-/
theorem laid' (hinj : ∀ r s x, t'.nodeAt (p ++ c :: r) = some x →
      t'.nodeAt (p ++ c :: s) = some x → r = s)
    (hnew : ∀ r x, t'.nodeAt (p ++ c :: r) = some x →
      t.kids a c = some x ∨ t.heap.next ≤ x)
    (halloc : ∀ r x, t'.nodeAt (p ++ c :: r) = some x → x < t'.heap.next)
    (hbare : ∀ r x, t'.nodeAt (p ++ c :: r) = some x → 0 < (t'.node x).suffixStart →
      ∀ d, t'.kids x d = none)
    (hparent : Fit (t.node a) p → Fit (t'.node a) p)
    (hfits : ∀ r x, t'.nodeAt (p ++ c :: r) = some x → Fit (t'.node x) (p ++ c :: r)) :
    t'.Laid Fit := by
  -- a node below the slot is not at a path beside it
  have hapart : ∀ r q x, t'.nodeAt (p ++ c :: r) = some x → ¬ (p ++ [c]) <+: q →
      t.nodeAt q ≠ some x := by
    intro r q x hr hq hqx
    rcases hnew r x hr with h | h
    · exact hq (l.tree q (p ++ [c]) x hqx (g.nodeAt_child.trans h) ▸ List.prefix_refl _)
    · exact absurd (l.allocated q x hqx) (Nat.not_lt.mpr h)
  have hsplit : ∀ q : List Slot, (p ++ [c]) <+: q → ∃ r, q = p ++ c :: r := by
    rintro q ⟨r, rfl⟩
    exact ⟨r, by simp⟩
  constructor
  · rw [g.root]
    by_cases hra : t.root = a
    · rw [hra, g.parent_start]
      exact g.inner
    · rw [g.node_of_not_prefix l (nodeAt_nil t) (by simp) hra]
      exact l.root_inner
  · intro q s x hq hs
    by_cases hqp : (p ++ [c]) <+: q
    · obtain ⟨r, rfl⟩ := hsplit q hqp
      by_cases hsp : (p ++ [c]) <+: s
      · obtain ⟨r', rfl⟩ := hsplit s hsp
        rw [hinj r r' x hq hs]
      · exact absurd ((g.nodeAt_of_not_prefix l hsp).symm.trans hs) (hapart r s x hq hsp)
    · by_cases hsp : (p ++ [c]) <+: s
      · obtain ⟨r', rfl⟩ := hsplit s hsp
        exact absurd ((g.nodeAt_of_not_prefix l hqp).symm.trans hq) (hapart r' q x hs hqp)
      · exact l.tree q s x ((g.nodeAt_of_not_prefix l hqp).symm.trans hq)
          ((g.nodeAt_of_not_prefix l hsp).symm.trans hs)
  · intro q x hq
    by_cases hqp : (p ++ [c]) <+: q
    · obtain ⟨r, rfl⟩ := hsplit q hqp
      exact halloc r x hq
    · rw [g.nodeAt_of_not_prefix l hqp] at hq
      exact Nat.lt_of_lt_of_le (l.allocated q x hq) g.next
  · intro q x hq hl d
    by_cases hqp : (p ++ [c]) <+: q
    · obtain ⟨r, rfl⟩ := hsplit q hqp
      exact hbare r x hq hl d
    · rw [g.nodeAt_of_not_prefix l hqp] at hq
      by_cases hxa : x = a
      · rw [hxa, g.parent_start] at hl
        exact absurd hl g.inner
      · rw [g.node_of_not_prefix l hq hqp hxa] at hl
        rw [g.frame_kids x (l.allocated q x hq) hxa]
        exact l.bare q x hq hl d
  · intro q x hq
    by_cases hqp : (p ++ [c]) <+: q
    · obtain ⟨r, rfl⟩ := hsplit q hqp
      exact hfits r x hq
    · rw [g.nodeAt_of_not_prefix l hqp] at hq
      by_cases hxa : x = a
      · subst hxa
        have hqp' : q = p := l.tree q p x hq g.parent
        rw [hqp']
        exact hparent (l.fits p x g.parent)
      · rw [g.node_of_not_prefix l hq hqp hxa]
        exact l.fits q x hq

/-- The map changes by what happened below the written slot. -/
theorem binds {k : Key} {v : ρ} {fresh : Prop}
    (hbelow : (∃ r x, t'.nodeAt (p ++ c :: r) = some x ∧ (t'.node x).Holds k v) ↔
      (∃ r x, t.nodeAt (p ++ c :: r) = some x ∧ (t.node x).Holds k v) ∨ fresh) :
    t'.Binds k v ↔ t.Binds k v ∨ fresh := by
  -- beside the slot only `a` changes, which is internal and holds nothing
  have hbeside : ∀ q x, ¬ (p ++ [c]) <+: q → t.nodeAt q = some x →
      ((t'.node x).Holds k v ↔ (t.node x).Holds k v) := by
    intro q x hq hx
    by_cases hxa : x = a
    · subst hxa
      constructor
      · exact fun h => absurd (g.parent_start ▸ h.1) g.inner
      · exact fun h => absurd h.1 g.inner
    · rw [g.node_of_not_prefix l hx hq hxa]
  constructor
  · rintro ⟨q, x, hx, hk⟩
    by_cases hq : (p ++ [c]) <+: q
    · obtain ⟨r, rfl⟩ := hq
      rcases hbelow.mp ⟨r, x, by simpa using hx, hk⟩ with ⟨r', y, hy, hk'⟩ | h
      · exact Or.inl ⟨_, y, hy, hk'⟩
      · exact Or.inr h
    · rw [g.nodeAt_of_not_prefix l hq] at hx
      exact Or.inl ⟨q, x, hx, (hbeside q x hq hx).mp hk⟩
  · rintro (⟨q, x, hx, hk⟩ | h)
    · by_cases hq : (p ++ [c]) <+: q
      · obtain ⟨r, rfl⟩ := hq
        obtain ⟨r', y, hy, hk'⟩ := hbelow.mpr (Or.inl ⟨r, x, by simpa using hx, hk⟩)
        exact ⟨_, y, hy, hk'⟩
      · refine ⟨q, x, ?_, (hbeside q x hq hx).mpr hk⟩
        rw [g.nodeAt_of_not_prefix l hq]
        exact hx
    · obtain ⟨r, x, hx, hk⟩ := hbelow.mpr (Or.inr h)
      exact ⟨_, x, hx, hk⟩

omit l in
/-- **The invariant survives a pointer write** under the same conditions. -/
theorem wf' (wf : t.Wf) (hinj : ∀ r s x, t'.nodeAt (p ++ c :: r) = some x →
      t'.nodeAt (p ++ c :: s) = some x → r = s)
    (hnew : ∀ r x, t'.nodeAt (p ++ c :: r) = some x →
      t.kids a c = some x ∨ t.heap.next ≤ x)
    (halloc : ∀ r x, t'.nodeAt (p ++ c :: r) = some x → x < t'.heap.next)
    (hfits : ∀ r x, t'.nodeAt (p ++ c :: r) = some x →
      (t'.node x).Fits t.keySize (p ++ c :: r)) : t'.Wf := by
  have hin : ¬ 0 < (t'.node a).suffixStart := by rw [g.parent_start]; exact g.inner
  have h := g.laid' wf.laid hinj hnew halloc (fun r x hx hl => (hfits r x hx).bare hl)
    (fun hfit => ⟨fun h => absurd h hin, fun h => absurd h hin, fun h => absurd h hin,
      fun h => absurd h hin, fun h => absurd h hin, fun _ => hfit.inner_depth g.inner,
      fun _ => by rw [g.parent_value]; exact hfit.inner_value g.inner⟩) hfits
  rw [← g.keySize] at h
  exact h.wf

end Graft

end HandleTrie

end AttentionBroker
