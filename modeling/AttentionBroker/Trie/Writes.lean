import AttentionBroker.Trie.Evolution

/-!
# The pointer writes of `HandleTrie::insert`

* `Attached` — a new node in an empty slot of an internal node
* `Deepened` — a leaf moves one level down, below a new internal node: alone in a push, next
  to a new leaf in a split

What these do to the tree and to the map does not depend on what a node has to be at its path,
which is the parameter `Fit` of `Laid`.
-/

namespace AttentionBroker.HandleTrie

open Infra

variable {ρ σ δ : Type} {t t' : HandleTrie ρ} {p q : List Slot} {a b : Nat} {c : Slot} {key : Key}
  {Fit : TrieNode ρ → List Slot → Prop}

/-! ## What the writes do to single nodes -/

@[simp] theorem link_root (t : HandleTrie ρ) (a : Nat) (c : Slot) (b : Nat) :
    (t.link a c b).root = t.root := rfl
@[simp] theorem link_keySize (t : HandleTrie ρ) (a : Nat) (c : Slot) (b : Nat) :
    (t.link a c b).keySize = t.keySize := rfl
@[simp] theorem link_next (t : HandleTrie ρ) (a : Nat) (c : Slot) (b : Nat) :
    (t.link a c b).heap.next = t.heap.next := rfl
@[simp] theorem push_root (t : HandleTrie ρ) (a : Nat) : (t.push a).root = t.root := rfl
@[simp] theorem push_keySize (t : HandleTrie ρ) (a : Nat) :
    (t.push a).keySize = t.keySize := rfl
@[simp] theorem push_next (t : HandleTrie ρ) (a : Nat) :
    (t.push a).heap.next = t.heap.next := rfl
@[simp] theorem newNode_root (t : HandleTrie ρ) (n : TrieNode ρ) :
    (t.newNode n).root = t.root := rfl
@[simp] theorem newNode_keySize (t : HandleTrie ρ) (n : TrieNode ρ) :
    (t.newNode n).keySize = t.keySize := rfl
@[simp] theorem newNode_next (t : HandleTrie ρ) (n : TrieNode ρ) :
    (t.newNode n).heap.next = t.heap.next + 1 := rfl

@[simp] theorem node_link_self (t : HandleTrie ρ) (a : Nat) (c : Slot) (b : Nat) :
    (t.link a c b).node a
      = { t.node a with children := Function.update (t.node a).children c (some b) } := by
  simp [node, link]

theorem node_link_ne {x : Nat} (hx : x ≠ a) : (t.link a c b).node x = t.node x := by
  simp [node, link, Pool.modify_cell_ne, hx]

@[simp] theorem node_push_self (t : HandleTrie ρ) (a : Nat) :
    (t.push a).node a = { t.node a with suffixStart := (t.node a).suffixStart + 1 } := by
  simp [node, push]

theorem node_push_ne {x : Nat} (hx : x ≠ a) : (t.push a).node x = t.node x := by
  simp [node, push, Pool.modify_cell_ne, hx]

@[simp] theorem node_newNode_next (t : HandleTrie ρ) (n : TrieNode ρ) :
    (t.newNode n).node t.heap.next = n :=
  Pool.alloc_cell_next _ _

theorem node_newNode_ne {x : Nat} {n : TrieNode ρ} (hx : x ≠ t.heap.next) :
    (t.newNode n).node x = t.node x :=
  Pool.alloc_cell_ne _ _ hx

/-! ## A new node in an empty slot -/

/-- Below a node without children there is only the node. -/
theorem walk_bare {x y : Nat} {r : List Slot} (hx : ∀ d, t.kids x d = none)
    (h : walk t.kids x r = some y) : r = [] ∧ y = x := by
  cases r with
  | nil => exact ⟨rfl, (Option.some.inj h).symm⟩
  | cons d r => rw [walk_cons, hx d] at h; simp at h

/-- `t'` is `t` with the new node `n` in the empty slot `c` of the internal node `a`. -/
structure Attached (t t' : HandleTrie ρ) (p : List Slot) (a : Nat) (c : Slot)
    (n : TrieNode ρ) : Prop extends Graft t t' p a c where
  empty : t.kids a c = none
  bare : ∀ d, n.children d = none
  slot : t'.kids a c = some t.heap.next
  node : t'.node t.heap.next = n
  fresh : t.heap.next < t'.heap.next

theorem attached (l : t.Laid Fit) (ha : t.nodeAt p = some a)
    (hin : ¬ 0 < (t.node a).suffixStart) (hc : t.kids a c = none) {n : TrieNode ρ}
    (hbare : ∀ d, n.children d = none) :
    Attached t ((t.newNode n).link a c t.heap.next) p a c n := by
  have hlt : a < t.heap.next := l.allocated p a ha
  have hnode_a : ((t.newNode n).link a c t.heap.next).node a = { t.node a with
      children := Function.update (t.node a).children c (some t.heap.next) } := by
    rw [node_link_self, node_newNode_ne (Nat.ne_of_lt hlt)]
  have hnode : ∀ x, x < t.heap.next → x ≠ a →
      ((t.newNode n).link a c t.heap.next).node x = t.node x := fun x hx hxa => by
    rw [node_link_ne hxa, node_newNode_ne (Nat.ne_of_lt hx)]
  exact
    { root := rfl
      keySize := rfl
      next := Nat.le_succ _
      parent := ha
      inner := hin
      slots := fun d hd => by simp [kids, hnode_a, hd]
      parent_start := by rw [hnode_a]
      parent_value := by rw [hnode_a]
      frame := fun x hx hxa _ => hnode x hx hxa
      frame_kids := fun x hx hxa => by unfold kids; rw [hnode x hx hxa]
      empty := hc
      bare := hbare
      slot := by simp [kids, hnode_a]
      node := by rw [node_link_ne (Nat.ne_of_gt hlt), node_newNode_next]
      fresh := Nat.lt_succ_self _ }

namespace Attached

variable {n : TrieNode ρ} (h : Attached t t' p a c n) (l : t.Laid Fit)
include h l

theorem below {r : List Slot} {x : Nat} (hx : t'.nodeAt (p ++ c :: r) = some x) :
    r = [] ∧ x = t.heap.next := by
  rw [h.nodeAt_below l, h.slot, Option.bind_some] at hx
  exact walk_bare (fun d => by unfold kids; rw [h.node]; exact h.bare d) hx

theorem nodeAt_new : t'.nodeAt (p ++ [c]) = some t.heap.next := by
  rw [h.nodeAt_below l, h.slot]
  rfl

theorem laid (hparent : Fit (t.node a) p → Fit (t'.node a) p) (hfit : Fit n (p ++ [c])) :
    t'.Laid Fit := by
  refine h.laid' l ?_ ?_ ?_ ?_ hparent ?_
  · intro r s x hr hs
    rw [(h.below l hr).1, (h.below l hs).1]
  · intro r x hr
    exact Or.inr (Nat.le_of_eq (h.below l hr).2.symm)
  · intro r x hr
    rw [(h.below l hr).2]
    exact h.fresh
  · intro r x hr _ d
    unfold kids
    rw [(h.below l hr).2, h.node]
    exact h.bare d
  · intro r x hr
    obtain ⟨rfl, rfl⟩ := h.below l hr
    rw [h.node]
    exact hfit

/-- The attached node is what the map gains. -/
theorem binds_iff (k : Key) (v : ρ) : t'.Binds k v ↔ t.Binds k v ∨ n.Holds k v := by
  refine h.binds l ⟨?_, ?_⟩
  · rintro ⟨r, x, hx, hk⟩
    obtain ⟨rfl, rfl⟩ := h.below l hx
    exact Or.inr (h.node ▸ hk)
  · rintro (⟨r, x, hx, -⟩ | hk)
    · exact absurd hx (by rw [nodeAt, walk_slot_none h.parent h.empty]; simp)
    · exact ⟨[], t.heap.next, h.nodeAt_new l, h.node.symm ▸ hk⟩

theorem evolves (hl : 0 < n.suffixStart) : Evolves n.suffix t t' := by
  have hext : Extends t t' := h.extends l fun x hx => absurd (h.empty.symm.trans hx) (by simp)
  refine h.toGraft.evolves l hext ?_ ?_
  · intro k v hk hb
    exact ((h.binds_iff l k v).mp hb).resolve_right fun h => hk h.2.1.symm
  · intro r x hr hx
    rw [(h.below l hr).2, h.node] at hx
    exact absurd hl hx

end Attached

/-! ## A leaf one level down -/

/--
What the writes do to single nodes when `m` takes the slot `c₀` of `par` from the leaf `L`,
which goes one level down. The children of `m` are `K`.
-/
structure Rewired (t t' : HandleTrie ρ) (par L m : Nat) (c₀ : Slot)
    (K : Slot → Option Nat) : Prop where
  parent : t'.node par
    = { t.node par with children := Function.update (t.node par).children c₀ (some m) }
  pushed : t'.node L = { t.node L with suffixStart := (t.node L).suffixStart + 1 }
  node : t'.node m = { (TrieNode.new : TrieNode ρ) with children := K }
  others : ∀ x, x < t.heap.next → x ≠ par → x ≠ L → t'.node x = t.node x

theorem Rewired.slot {par L m : Nat} {c₀ : Slot} {K : Slot → Option Nat}
    (hr : Rewired t t' par L m c₀ K) : t'.kids par c₀ = some m := by
  simp [kids, hr.parent]

/-- Only the children of `par` in the slot change. -/
theorem Rewired.graft {par L m : Nat} {c₀ : Slot} {K : Slot → Option Nat}
    (hr : Rewired t t' par L m c₀ K) (hroot : t'.root = t.root) (hsize : t'.keySize = t.keySize)
    (hnext : t.heap.next ≤ t'.heap.next) (hp : t.nodeAt p = some par)
    (hin : ¬ 0 < (t.node par).suffixStart) (hL : t.kids par c₀ = some L) :
    Graft t t' p par c₀ where
  root := hroot
  keySize := hsize
  next := hnext
  parent := hp
  inner := hin
  slots := fun d hd => by simp [kids, hr.parent, hd]
  parent_start := by rw [hr.parent]
  parent_value := by rw [hr.parent]
  frame := fun x hx hxp hxL => hr.others x hx hxp fun h => hxL (by rw [hL, h])
  frame_kids := fun x hx hxp => by
    unfold kids
    by_cases hxL : x = L
    · rw [hxL, hr.pushed]
    · rw [hr.others x hx hxp hxL]

section Push

variable {par L m : Nat} {c₀ ct : Slot} {K : Slot → Option Nat}

/--
`t'` is `t` with a new internal node `m` in the slot of the leaf `L`, which is now one level
deeper, in slot `ct` of `m`. The other slots `K` of `m` hold new nodes.
-/
structure Deepened (t t' : HandleTrie ρ) (p : List Slot) (par L m : Nat) (c₀ ct : Slot)
    (K : Slot → Option Nat) : Prop extends Graft t t' p par c₀ where
  old : t.kids par c₀ = some L
  leaf : 0 < (t.node L).suffixStart
  pushed : t'.node L = { t.node L with suffixStart := (t.node L).suffixStart + 1 }
  fresh : t.heap.next ≤ m ∧ m < t'.heap.next
  slot : t'.kids par c₀ = some m
  node : t'.node m = { (TrieNode.new : TrieNode ρ) with children := K }
  kept : K ct = some L
  others : ∀ d x, d ≠ ct → K d = some x → (t.heap.next ≤ x ∧ x < t'.heap.next ∧ x ≠ m) ∧
    ∀ e, (t'.node x).children e = none
  inj : ∀ d e x, K d = some x → K e = some x → d = e

namespace Deepened

theorem oldAt (h : Deepened t t' p par L m c₀ ct K) : t.nodeAt (p ++ [c₀]) = some L :=
  h.nodeAt_child.trans h.old

theorem kids_node (h : Deepened t t' p par L m c₀ ct K) : t'.kids m = K := by
  unfold kids
  rw [h.node]

variable (h : Deepened t t' p par L m c₀ ct K) (l : t.Laid Fit)
include h l

/-- What the slots of the new node hold has no children. -/
theorem bare_of_slot {d : Slot} {x : Nat} (hd : K d = some x) :
    (∀ e, t'.kids x e = none) ∧ x ≠ m := by
  by_cases hdt : d = ct
  · subst hdt
    obtain rfl : L = x := Option.some.inj (h.kept.symm.trans hd)
    have hlt : L < t.heap.next := l.allocated _ L h.oldAt
    have hm := h.fresh.1
    refine ⟨fun e => ?_, by omega⟩
    have hbare := l.bare _ L h.oldAt h.leaf e
    unfold kids at hbare ⊢
    rw [h.pushed]
    exact hbare
  · obtain ⟨⟨-, -, hxm⟩, hbare⟩ := h.others d x hdt hd
    exact ⟨hbare, hxm⟩

/-- Below the slot there are the new node and what its slots hold. -/
theorem below {r : List Slot} {x : Nat} (hx : t'.nodeAt (p ++ c₀ :: r) = some x) :
    (r = [] ∧ x = m) ∨ ∃ d, r = [d] ∧ K d = some x := by
  rw [h.nodeAt_below l, h.slot, Option.bind_some] at hx
  cases r with
  | nil => exact Or.inl ⟨rfl, (Option.some.inj hx).symm⟩
  | cons d r =>
    rw [walk_cons, h.kids_node] at hx
    obtain ⟨y, hy, hx⟩ := Option.bind_eq_some_iff.mp hx
    obtain ⟨rfl, rfl⟩ := walk_bare (h.bare_of_slot l hy).1 hx
    exact Or.inr ⟨d, rfl, hy⟩

theorem nodeAt_new : t'.nodeAt (p ++ [c₀]) = some m := by
  rw [h.nodeAt_below l, h.slot]
  rfl

theorem nodeAt_slot {d : Slot} {x : Nat} (hd : K d = some x) :
    t'.nodeAt (p ++ [c₀, d]) = some x := by
  rw [h.nodeAt_below l, h.slot, Option.bind_some, walk_cons, h.kids_node, hd]
  rfl

theorem laid (hparent : Fit (t.node par) p → Fit (t'.node par) p)
    (hm : Fit (t'.node m) (p ++ [c₀])) (hL : Fit (t'.node L) (p ++ [c₀, ct]))
    (hothers : ∀ d x, d ≠ ct → K d = some x → Fit (t'.node x) (p ++ [c₀, d])) :
    t'.Laid Fit := by
  refine h.laid' l ?_ ?_ ?_ ?_ hparent ?_
  · intro r s x hr hs
    rcases h.below l hr with ⟨rfl, rfl⟩ | ⟨d, rfl, hd⟩ <;>
      rcases h.below l hs with ⟨rfl, hxm⟩ | ⟨e, rfl, he⟩
    · rfl
    · exact absurd rfl (h.bare_of_slot l he).2
    · exact absurd hxm (h.bare_of_slot l hd).2
    · rw [h.inj d e x hd he]
  · intro r x hr
    rcases h.below l hr with ⟨rfl, rfl⟩ | ⟨d, rfl, hd⟩
    · exact Or.inr h.fresh.1
    · by_cases hdt : d = ct
      · exact Or.inl (h.old.trans (h.kept.symm.trans (hdt ▸ hd)))
      · exact Or.inr (h.others d x hdt hd).1.1
  · intro r x hr
    rcases h.below l hr with ⟨rfl, rfl⟩ | ⟨d, rfl, hd⟩
    · exact h.fresh.2
    · by_cases hdt : d = ct
      · obtain rfl : L = x := Option.some.inj (h.kept.symm.trans (hdt ▸ hd))
        exact Nat.lt_of_lt_of_le (l.allocated _ L h.oldAt) h.next
      · exact (h.others d x hdt hd).1.2.1
  · intro r x hr hx
    rcases h.below l hr with ⟨rfl, rfl⟩ | ⟨d, rfl, hd⟩
    · exact absurd hx (by rw [h.node]; simp [TrieNode.new])
    · exact (h.bare_of_slot l hd).1
  · intro r x hr
    rcases h.below l hr with ⟨rfl, rfl⟩ | ⟨d, rfl, hd⟩
    · exact hm
    · by_cases hdt : d = ct
      · subst hdt
        obtain rfl : L = x := Option.some.inj (h.kept.symm.trans hd)
        exact hL
      · exact hothers d x hdt hd

/-- The map gains what the new nodes hold, when the old leaf is still one. -/
theorem binds_iff (hpos : 0 < (t.node L).suffixStart + 1) (k : Key) (v : ρ) : t'.Binds k v ↔
    t.Binds k v ∨ ∃ d x, d ≠ ct ∧ K d = some x ∧ (t'.node x).Holds k v := by
  have hholds : (t'.node L).Holds k v ↔ (t.node L).Holds k v := by
    rw [h.pushed]
    exact ⟨fun hk => ⟨h.leaf, hk.2⟩, fun hk => ⟨hpos, hk.2⟩⟩
  refine h.binds l ⟨?_, ?_⟩
  · rintro ⟨r, x, hx, hk⟩
    rcases h.below l hx with ⟨rfl, rfl⟩ | ⟨d, rfl, hd⟩
    · exact absurd hk.1 (by rw [h.node]; simp [TrieNode.new])
    · by_cases hdt : d = ct
      · obtain rfl : L = x := Option.some.inj (h.kept.symm.trans (hdt ▸ hd))
        exact Or.inl ⟨[], _, h.oldAt, hholds.mp hk⟩
      · exact Or.inr ⟨d, x, hdt, hd, hk⟩
  · rintro (⟨r, x, hx, hk⟩ | ⟨d, x, -, hd, hk⟩)
    · have hr : p ++ c₀ :: r = p ++ [c₀] := l.below_leaf h.oldAt h.leaf hx ⟨r, by simp⟩
      rw [hr, h.oldAt] at hx
      obtain rfl := Option.some.inj hx
      exact ⟨[ct], _, h.nodeAt_slot l h.kept, hholds.mpr hk⟩
    · exact ⟨[d], x, h.nodeAt_slot l hd, hk⟩

/-- The new node is on the way to the key of `L` and to the key being inserted. -/
theorem evolves (hpos : 0 < (t.node L).suffixStart + 1) (hkey : p ++ [c₀] <+: code key)
    (hL : p ++ [c₀] <+: code (t.node L).suffix) (hv : ∃ v, (t.node L).value = some v)
    (hne : (t.node L).suffix ≠ key)
    (hnew : ∀ d x, d ≠ ct → K d = some x →
      0 < (t'.node x).suffixStart ∧ (t'.node x).suffix = key) : Evolves key t t' := by
  have hext : Extends t t' := h.extends l fun x hx => by
    obtain rfl : L = x := Option.some.inj (h.old.symm.trans hx)
    refine ⟨h.leaf, [ct], h.nodeAt_slot l h.kept, ?_⟩
    rw [h.pushed]
    exact ⟨hpos, rfl, rfl⟩
  refine h.toGraft.evolves l hext ?_ ?_
  · intro k v hk hb
    rcases (h.binds_iff l hpos k v).mp hb with hb | ⟨d, x, hdt, hd, hx⟩
    · exact hb
    · exact absurd (hx.2.1.symm.trans (hnew d x hdt hd).2) hk
  · intro r x hr hin
    rcases h.below l hr with ⟨rfl, rfl⟩ | ⟨d, rfl, hd⟩
    · obtain ⟨v, hv⟩ := hv
      exact ⟨hkey, _, v, hne, ⟨_, L, h.oldAt, h.leaf, rfl, hv⟩, hL⟩
    · by_cases hdt : d = ct
      · subst hdt
        obtain rfl : L = x := Option.some.inj (h.kept.symm.trans hd)
        rw [h.pushed] at hin
        exact absurd hpos hin
      · exact absurd (hnew d x hdt hd).1 hin

end Deepened

theorem rewired_push (hpar : par < t.heap.next) (hL : L < t.heap.next) (hne : L ≠ par)
    (c₀ c : Slot) :
    let n := t.heap.next
    Rewired t ((((t.newNode TrieNode.new).link n c L).push L).link par c₀ n) par L n c₀
      (Function.update (fun _ => none) c (some L)) := by
  intro n
  constructor
  · rw [node_link_self, node_push_ne hne.symm, node_link_ne (Nat.ne_of_lt hpar),
      node_newNode_ne (Nat.ne_of_lt hpar)]
  · rw [node_link_ne hne, node_push_self, node_link_ne (Nat.ne_of_lt hL),
      node_newNode_ne (Nat.ne_of_lt hL)]
  · rw [node_link_ne (Nat.ne_of_gt hpar), node_push_ne (Nat.ne_of_gt hL), node_link_self,
      node_newNode_next]
    rfl
  · intro x hx hxp hxL
    rw [node_link_ne hxp, node_push_ne hxL, node_link_ne (Nat.ne_of_lt hx),
      node_newNode_ne (Nat.ne_of_lt hx)]

/-- A push leaves no other node below the new one. -/
theorem push_slot {d : Slot} {x : Nat}
    (hd : Function.update (fun _ => none) c (some L) d = some x) : d = c := by
  by_contra hdc
  rw [Function.update_of_ne hdc] at hd
  exact absurd hd (by simp)

/--
The push of the leaf `L` in slot `c₀` of `par`: a new internal node takes the slot and has
`L` in its slot `c`.
-/
theorem deepened_push (l : t.Laid Fit) (hp : t.nodeAt p = some par)
    (hin : ¬ 0 < (t.node par).suffixStart) (hL : t.kids par c₀ = some L)
    (hl : 0 < (t.node L).suffixStart) (c : Slot) :
    let n := t.heap.next
    Deepened t ((((t.newNode TrieNode.new).link n c L).push L).link par c₀ n) p par L n c₀ c
      (Function.update (fun _ => none) c (some L)) := by
  intro n
  have hLat : t.nodeAt (p ++ [c₀]) = some L := nodeAt_kid hp hL
  have hLpar : L ≠ par := fun h => hin (h ▸ hl)
  have hr := rewired_push (l.allocated p par hp) (l.allocated _ L hLat) hLpar c₀ c
  exact
    { toGraft := hr.graft rfl rfl (Nat.le_succ _) hp hin hL
      old := hL
      leaf := hl
      pushed := hr.pushed
      fresh := ⟨Nat.le_refl _, Nat.lt_succ_self _⟩
      slot := hr.slot
      node := hr.node
      kept := Function.update_self ..
      others := fun d x hdc hd => absurd (push_slot hd) hdc
      inj := fun d e x hd he => (push_slot hd).trans (push_slot he).symm }

/-- The children of the new node of a split. -/
def splitKids (c : Slot) (n : Nat) (ct : Slot) (L : Nat) : Slot → Option Nat :=
  Function.update (Function.update (fun _ => none) c (some n)) ct (some L)

/-- The old leaf is linked last, so it takes the slot when the two slots are one. -/
theorem splitKids_eq_some {n x : Nat} {d : Slot} :
    splitKids c n ct L d = some x ↔ d ≠ ct ∧ d = c ∧ x = n ∨ d = ct ∧ x = L := by
  rw [splitKids, Function.update_apply, Function.update_apply]
  by_cases hd : d = ct
  · simp [hd, eq_comm]
  · by_cases hdc : d = c
    · subst hdc
      simp [hd, eq_comm]
    · simp [hd, hdc]

theorem rewired_split (hpar : par < t.heap.next) (hL : L < t.heap.next) (hne : L ≠ par)
    (c₀ c ct : Slot) (leaf : TrieNode ρ) :
    let n := t.heap.next
    let t₁ := (t.newNode leaf).push L
    let m := t₁.heap.next
    let t' := (((t₁.newNode TrieNode.new).link m c n).link m ct L).link par c₀ m
    Rewired t t' par L m c₀ (splitKids c n ct L) ∧ t'.node n = leaf := by
  intro n t₁ m t'
  have hm : m = n + 1 := rfl
  have hpar₁ : t₁.node par = t.node par := by
    show ((t.newNode leaf).push L).node par = _
    rw [node_push_ne hne.symm, node_newNode_ne (Nat.ne_of_lt hpar)]
  -- the new internal node and the slot of `par` are written last
  have hlast : ∀ x, x ≤ n → x ≠ par → t'.node x = t₁.node x := fun x hx hxp => by
    show ((((t₁.newNode TrieNode.new).link m c n).link m ct L).link par c₀ m).node x = _
    rw [node_link_ne hxp, node_link_ne (by omega), node_link_ne (by omega),
      node_newNode_ne (show x ≠ m by omega)]
  refine ⟨⟨?_, ?_, ?_, fun x hx hxp hxL => ?_⟩, ?_⟩
  · rw [node_link_self, node_link_ne (by omega), node_link_ne (by omega),
      node_newNode_ne (show par ≠ m by omega), hpar₁]
  · rw [hlast L (Nat.le_of_lt hL) hne, node_push_self, node_newNode_ne (Nat.ne_of_lt hL)]
  · rw [node_link_ne (by omega), node_link_self, node_link_self, node_newNode_next]
    rfl
  · rw [hlast x (Nat.le_of_lt hx) hxp, node_push_ne hxL, node_newNode_ne (Nat.ne_of_lt hx)]
  · rw [hlast n (Nat.le_refl n) (Nat.ne_of_gt hpar), node_push_ne (Nat.ne_of_gt hL),
      node_newNode_next]

/--
The split of the leaf `L` in slot `c₀` of `par`: a new internal node takes the slot, with
the new leaf in its slot `c` and `L` in its slot `ct`.
-/
theorem deepened_split (l : t.Laid Fit) (hp : t.nodeAt p = some par)
    (hin : ¬ 0 < (t.node par).suffixStart) (hL : t.kids par c₀ = some L)
    (hl : 0 < (t.node L).suffixStart) (c ct : Slot) (leaf : TrieNode ρ)
    (hbare : ∀ d, leaf.children d = none) :
    let n := t.heap.next
    let t₁ := (t.newNode leaf).push L
    let m := t₁.heap.next
    let t' := (((t₁.newNode TrieNode.new).link m c n).link m ct L).link par c₀ m
    Deepened t t' p par L m c₀ ct (splitKids c n ct L) ∧ t'.node n = leaf := by
  intro n t₁ m t'
  have hLat : t.nodeAt (p ++ [c₀]) = some L := nodeAt_kid hp hL
  have hLlt : L < n := l.allocated _ L hLat
  have hLpar : L ≠ par := fun h => hin (h ▸ hl)
  obtain ⟨hr, hnode_n⟩ : Rewired t t' par L m c₀ (splitKids c n ct L) ∧ t'.node n = leaf :=
    rewired_split (l.allocated p par hp) hLlt hLpar c₀ c ct leaf
  have hm : m = n + 1 := rfl
  have hnext : t'.heap.next = n + 2 := rfl
  refine ⟨?_, hnode_n⟩
  exact
    { toGraft := hr.graft rfl rfl (by rw [hnext]; omega) hp hin hL
      old := hL
      leaf := hl
      pushed := hr.pushed
      fresh := ⟨by omega, by omega⟩
      slot := hr.slot
      node := hr.node
      kept := splitKids_eq_some.mpr (.inr ⟨rfl, rfl⟩)
      others := fun d x hdt hd => by
        obtain ⟨-, -, rfl⟩ := (splitKids_eq_some.mp hd).resolve_right fun h => hdt h.1
        rw [hnode_n]
        exact ⟨⟨Nat.le_refl _, by omega, by omega⟩, hbare⟩
      inj := fun d e x hd he => by
        rcases splitKids_eq_some.mp hd with ⟨-, rfl, rfl⟩ | ⟨rfl, rfl⟩ <;>
          rcases splitKids_eq_some.mp he with ⟨-, rfl, hx⟩ | ⟨rfl, hx⟩
        · rfl
        · exact absurd hx (Nat.ne_of_gt hLlt)
        · exact absurd hx (Nat.ne_of_lt hLlt)
        · rfl }

end Push

end AttentionBroker.HandleTrie
