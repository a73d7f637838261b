import AttentionBroker.Trie.Shape

/-!
# What a trie keeps

`Extends` says what another thread that holds the address of a node can rely on while
`insert` runs: an internal node stays where it is, and a leaf keeps its key and its value
and only moves down. `Evolves` adds where the new internal nodes come from: the key being
inserted shares their path with a stored key.

Both are preorders. `Graft.extends` and `Graft.evolves` establish them for one pointer
write, and `insert` is a sequence of such writes.
-/

namespace AttentionBroker.HandleTrie

open Infra

variable {ρ : Type} {t t' t'' : HandleTrie ρ} {p q : List Slot} {a b : Nat} {c : Slot} {key : Key}

/-- `t'` has the nodes of `t`, the internal ones in their places and the leaves there or below. -/
structure Extends (t t' : HandleTrie ρ) : Prop where
  root : t'.root = t.root
  keySize : t'.keySize = t.keySize
  inner : ∀ p a, t.nodeAt p = some a → ¬ 0 < (t.node a).suffixStart →
    t'.nodeAt p = some a ∧ ¬ 0 < (t'.node a).suffixStart
  leaf : ∀ p a, t.nodeAt p = some a → 0 < (t.node a).suffixStart →
    ∃ r, t'.nodeAt (p ++ r) = some a ∧ 0 < (t'.node a).suffixStart ∧
      (t'.node a).suffix = (t.node a).suffix ∧ (t'.node a).value = (t.node a).value

/-- `t'` is `t` during or after the insertion of the key. -/
structure Evolves (key : Key) (t t' : HandleTrie ρ) : Prop extends Extends t t' where
  old : ∀ k v, k ≠ key → t'.Binds k v → t.Binds k v
  fresh : ∀ p a, t'.nodeAt p = some a → ¬ 0 < (t'.node a).suffixStart → t.nodeAt p = some a ∨
    (p <+: code key ∧ ∃ k v, k ≠ key ∧ t.Binds k v ∧ p <+: code k)

namespace Extends

theorem refl (t : HandleTrie ρ) : Extends t t where
  root := rfl
  keySize := rfl
  inner := fun _ _ ha hin => ⟨ha, hin⟩
  leaf := fun p a ha hl => ⟨[], by rwa [List.append_nil], hl, rfl, rfl⟩

/-- A node keeps being reachable, at its path or below. -/
theorem nodeAt (e : Extends t t') (ha : t.nodeAt p = some a) :
    ∃ r, t'.nodeAt (p ++ r) = some a := by
  by_cases hl : 0 < (t.node a).suffixStart
  · obtain ⟨r, hr, -⟩ := e.leaf p a ha hl
    exact ⟨r, hr⟩
  · exact ⟨[], by rw [List.append_nil]; exact (e.inner p a ha hl).1⟩

/-- A leaf does not become internal. -/
theorem inner_of_inner (e : Extends t t') (ha : t.nodeAt p = some a)
    (hin : ¬ 0 < (t'.node a).suffixStart) : ¬ 0 < (t.node a).suffixStart := by
  intro hl
  obtain ⟨r, -, hl', -⟩ := e.leaf p a ha hl
  exact hin hl'

theorem trans (e : Extends t t') (e' : Extends t' t'') : Extends t t'' where
  root := e'.root.trans e.root
  keySize := e'.keySize.trans e.keySize
  inner := fun p a ha hin => by
    obtain ⟨ha', hin'⟩ := e.inner p a ha hin
    exact e'.inner p a ha' hin'
  leaf := fun p a ha hl => by
    obtain ⟨r, ha', hl', hs, hv⟩ := e.leaf p a ha hl
    obtain ⟨r', ha'', hl'', hs', hv'⟩ := e'.leaf _ a ha' hl'
    exact ⟨r ++ r', by rwa [← List.append_assoc], hl'', hs'.trans hs, hv'.trans hv⟩

/-- **A binding stays.** -/
theorem binds (e : Extends t t') {k : Key} {v : ρ} (h : t.Binds k v) : t'.Binds k v := by
  obtain ⟨p, a, ha, hl, hk, hv⟩ := h
  obtain ⟨r, ha', hl', hs, hv'⟩ := e.leaf p a ha hl
  exact ⟨p ++ r, a, ha', hl', hs.trans hk, hv'.trans hv⟩

end Extends

namespace Evolves

theorem refl (key : Key) (t : HandleTrie ρ) : Evolves key t t where
  toExtends := Extends.refl t
  old := fun _ _ _ h => h
  fresh := fun _ _ ha _ => Or.inl ha

theorem trans (e : Evolves key t t') (e' : Evolves key t' t'') : Evolves key t t'' where
  toExtends := e.toExtends.trans e'.toExtends
  old := fun k v hk h => e.old k v hk (e'.old k v hk h)
  fresh := fun p a ha hin => by
    rcases e'.fresh p a ha hin with ha' | ⟨hp, k, v, hk, hb, hpk⟩
    · exact e.fresh p a ha' (e'.inner_of_inner ha' hin)
    · exact Or.inr ⟨hp, k, v, hk, e.old k v hk hb, hpk⟩

end Evolves

/-! ## One pointer write -/

/-- **A pointer write extends the trie** when a leaf that was in the slot is still below it. -/
theorem Graft.extends {Fit : TrieNode ρ → List Slot → Prop} (g : Graft t t' p a c)
    (l : t.Laid Fit)
    (hslot : ∀ x, t.kids a c = some x → 0 < (t.node x).suffixStart ∧
      ∃ r, t'.nodeAt (p ++ c :: r) = some x ∧ 0 < (t'.node x).suffixStart ∧
        (t'.node x).suffix = (t.node x).suffix ∧ (t'.node x).value = (t.node x).value) :
    Extends t t' := by
  -- what is at or below the slot is the leaf in it
  have hbelow : ∀ q x, t.nodeAt q = some x → (p ++ [c]) <+: q →
      q = p ++ [c] ∧ t.kids a c = some x := by
    rintro q x hx ⟨r, rfl⟩
    obtain ⟨y, hy, -⟩ := walk_prefix hx
    have hkid : t.kids a c = some y := g.nodeAt_child.symm.trans hy
    have hq := l.below_leaf hy (hslot y hkid).1 hx (List.prefix_append _ r)
    rw [hq] at hx
    exact ⟨hq, g.nodeAt_child.symm.trans hx⟩
  constructor
  · exact g.root
  · exact g.keySize
  · intro q x hx hin
    by_cases hq : (p ++ [c]) <+: q
    · exact absurd (hslot x (hbelow q x hx hq).2).1 hin
    · refine ⟨(g.nodeAt_of_not_prefix l hq).trans hx, ?_⟩
      by_cases hxa : x = a
      · rw [hxa, g.parent_start]
        exact g.inner
      · rwa [g.node_of_not_prefix l hx hq hxa]
  · intro q x hx hl
    by_cases hq : (p ++ [c]) <+: q
    · obtain ⟨rfl, hkid⟩ := hbelow q x hx hq
      obtain ⟨-, r, hr, hl', hs, hv⟩ := hslot x hkid
      exact ⟨r, by simpa using hr, hl', hs, hv⟩
    · have hxa : x ≠ a := fun h => g.inner (h ▸ hl)
      refine ⟨[], ?_, ?_⟩
      · rw [List.append_nil]
        exact (g.nodeAt_of_not_prefix l hq).trans hx
      · rw [g.node_of_not_prefix l hx hq hxa]
        exact ⟨hl, rfl, rfl⟩

/-- A pointer write makes new internal nodes only below its slot. -/
theorem Graft.evolves {Fit : TrieNode ρ → List Slot → Prop} (g : Graft t t' p a c)
    (l : t.Laid Fit) (e : Extends t t')
    (hold : ∀ k v, k ≠ key → t'.Binds k v → t.Binds k v)
    (hbelow : ∀ r x, t'.nodeAt (p ++ c :: r) = some x → ¬ 0 < (t'.node x).suffixStart →
      p ++ c :: r <+: code key ∧ ∃ k v, k ≠ key ∧ t.Binds k v ∧ p ++ c :: r <+: code k) :
    Evolves key t t' where
  toExtends := e
  old := hold
  fresh := fun q x hx hin => by
    by_cases hq : (p ++ [c]) <+: q
    · obtain ⟨r, rfl⟩ := hq
      rw [List.append_assoc, List.singleton_append] at hx ⊢
      exact Or.inr (hbelow r x hx hin)
    · exact Or.inl ((g.nodeAt_of_not_prefix l hq).symm.trans hx)

end AttentionBroker.HandleTrie
