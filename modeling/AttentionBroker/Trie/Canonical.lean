import Mathlib.Data.Finset.Lattice.Fold
import Mathlib.Order.Lattice.Nat
import AttentionBroker.Trie.Refinement

/-!
# The shape of a trie depends on its keys alone

`insert` builds the tree by attaching, pushing down and splitting leaves, and what it does
depends on what is there. `Canonical` describes the result by the set of keys: a leaf sits
one level below the longest prefix that its key shares with another key, and the internal
nodes are the shared prefixes. Two tries with the same keys have the same shape.

`Tight` is the invariant of a sequence of insertions. Its one fact beyond `Wf` is that two
keys share the path of every internal node, which is what `Evolves` says of the new ones.
-/

namespace AttentionBroker

open Infra

/-! ## Common prefixes -/

section CommonPrefix

variable {α : Type} [DecidableEq α]

/-- The length of the longest common prefix. -/
def commonPrefix : List α → List α → Nat
  | a :: k, b :: k' => if a = b then commonPrefix k k' + 1 else 0
  | _, _ => 0

theorem le_commonPrefix_iff : ∀ {n : Nat} {k k' : List α}, n ≤ commonPrefix k k' ↔
    n ≤ k.length ∧ n ≤ k'.length ∧ k.take n = k'.take n
  | 0, _, _ => by simp
  | n + 1, [], k' => by simp [commonPrefix]
  | n + 1, a :: k, [] => by simp [commonPrefix]
  | n + 1, a :: k, b :: k' => by
    rw [commonPrefix]
    by_cases hab : a = b
    · rw [if_pos hab, Nat.succ_le_succ_iff, le_commonPrefix_iff]
      simp [hab]
    · rw [if_neg hab]
      simp [hab]

end CommonPrefix

/-- One more than the longest common prefix with another key, and 1 for the only key. -/
def leafDepth (K : Finset Key) (k : Key) : Nat := 1 + (K.erase k).sup (commonPrefix k)

/-- What a node of the tree is. -/
inductive NodeShape where
  | inner
  | leaf (key : Key) (suffixStart : Nat)
deriving DecidableEq, Repr

namespace HandleTrie

variable {ρ σ : Type} {t t' : HandleTrie ρ} {K : Finset Key} {p q : List Slot} {a b : Nat}
  {k : Key}

/-- What is at a path. -/
def shapeAt (t : HandleTrie ρ) (p : List Slot) : Option NodeShape :=
  (t.nodeAt p).map fun a =>
    if 0 < (t.node a).suffixStart then .leaf (t.node a).suffix (t.node a).suffixStart.toNat
    else .inner

/-- **The tree of a set of keys.** -/
structure Canonical (K : Finset Key) (t : HandleTrie ρ) : Prop where
  root : ¬ 0 < (t.node t.root).suffixStart
  /-- Each key is in exactly one leaf, below the prefix it shares with another key. -/
  leaf : ∀ k ∈ K, ∃ p a, t.nodeAt p = some a ∧ p <+: code k ∧ (t.node a).suffix = k ∧
    p.length = leafDepth K k ∧ (t.node a).suffixStart.toNat = leafDepth K k ∧
    ∀ q b, t.nodeAt q = some b → 0 < (t.node b).suffixStart → (t.node b).suffix = k → q = p
  only : ∀ p a, t.nodeAt p = some a → 0 < (t.node a).suffixStart → (t.node a).suffix ∈ K
  /-- The internal nodes below the root are the prefixes that two keys share. -/
  inner : ∀ p, p ≠ [] → ((∃ a, t.nodeAt p = some a ∧ ¬ 0 < (t.node a).suffixStart) ↔
    ∃ w, p = code w ∧ ∃ k ∈ K, ∃ k' ∈ K, k ≠ k' ∧ w <+: k ∧ w <+: k')
  value : ∀ p a, t.nodeAt p = some a → ¬ 0 < (t.node a).suffixStart → (t.node a).value = none

/-- The insertion of one key after the other. -/
def insertAll (ops : TrieValue ρ σ) (t : HandleTrie ρ) (s : σ) :
    List (Key × ρ) → Except Fault (HandleTrie ρ × σ)
  | [] => .ok (t, s)
  | (key, value) :: entries => do
    let (_, t, s) ← t.insert ops key value s
    insertAll ops t s entries

/-- An invariant of the insertions made so far and the trie they lead to. -/
theorem insertAll_invariant {ops : TrieValue ρ σ} {P : List (Key × ρ) → HandleTrie ρ → Prop}
    (all : List (Key × ρ)) (hstep : ∀ es key value t s r, (key, value) ∈ all →
      (∀ e ∈ es, e ∈ all) → P es t → t.insert ops key value s = .ok r →
      P (es ++ [(key, value)]) r.2.1) :
    ∀ (entries es : List (Key × ρ)) (t t' : HandleTrie ρ) (s s' : σ),
      (∀ e ∈ es ++ entries, e ∈ all) → P es t → t.insertAll ops s entries = .ok (t', s') →
      P (es ++ entries) t'
  | [], es, t, t', s, s', _, hP, hrun => by
    cases hrun
    rwa [List.append_nil]
  | (key, value) :: entries, es, t, t', s, s', hall, hP, hrun => by
    rw [insertAll] at hrun
    rcases hins : t.insert ops key value s with e | ⟨v, t₁, s₁⟩
    · rw [hins] at hrun
      cases hrun
    · rw [hins] at hrun
      have hP₁ := hstep es key value t s _ (hall _ (by simp))
        (fun e he => hall e (List.mem_append_left _ he)) hP hins
      have hend := insertAll_invariant all hstep entries (es ++ [(key, value)]) t₁ t' s₁ s'
        (by simpa using hall) hP₁ hrun
      simpa using hend

/-! ## Reading the shape -/

theorem shapeAt_inner : t.shapeAt p = some .inner ↔
    ∃ a, t.nodeAt p = some a ∧ ¬ 0 < (t.node a).suffixStart := by
  unfold shapeAt
  rw [Option.map_eq_some_iff]
  refine exists_congr fun a => and_congr_right fun _ => ?_
  split <;> simp_all

theorem shapeAt_leaf {n : Nat} : t.shapeAt p = some (.leaf k n) ↔
    ∃ a, t.nodeAt p = some a ∧ 0 < (t.node a).suffixStart ∧ (t.node a).suffix = k ∧
      (t.node a).suffixStart.toNat = n := by
  unfold shapeAt
  rw [Option.map_eq_some_iff]
  refine exists_congr fun a => and_congr_right fun _ => ?_
  split <;> simp_all

/-- What is at a path, in terms of the keys. -/
theorem Canonical.shapeAt_iff (h : Canonical K t) (x : NodeShape) : t.shapeAt p = some x ↔
    match x with
    | .inner => p = [] ∨ ∃ w, p = code w ∧ ∃ k ∈ K, ∃ k' ∈ K, k ≠ k' ∧ w <+: k ∧ w <+: k'
    | .leaf k n => k ∈ K ∧ n = leafDepth K k ∧ p = (code k).take n := by
  cases x with
  | inner =>
    rw [shapeAt_inner]
    by_cases hp : p = []
    · subst hp
      exact ⟨fun _ => Or.inl rfl, fun _ => ⟨t.root, nodeAt_nil t, h.root⟩⟩
    · rw [h.inner p hp]
      exact ⟨Or.inr, fun hw => hw.resolve_left hp⟩
  | leaf k n =>
    rw [shapeAt_leaf]
    constructor
    · rintro ⟨a, ha, hl, rfl, rfl⟩
      have hK := h.only p a ha hl
      obtain ⟨p', a', ha', hp', -, hlen, hstart, huniq⟩ := h.leaf _ hK
      -- the tree has one leaf for the key, and this is it
      obtain rfl : p = p' := huniq p a ha hl rfl
      obtain rfl : a = a' := Option.some.inj (ha.symm.trans ha')
      refine ⟨hK, hstart, ?_⟩
      rw [hstart, ← hlen]
      exact List.prefix_iff_eq_take.mp hp'
    · rintro ⟨hK, rfl, rfl⟩
      obtain ⟨p', a, ha, hp', hk, hlen, hstart, -⟩ := h.leaf k hK
      rw [← hlen, ← List.prefix_iff_eq_take.mp hp']
      refine ⟨a, ha, ?_, hk, hstart.trans hlen.symm⟩
      rw [pos_iff, hstart, leafDepth]
      omega

/-- **The keys determine the shape.** -/
theorem Canonical.shapeAt_eq {ρ' : Type} {t' : HandleTrie ρ'} (h : Canonical K t)
    (h' : Canonical K t') (p : List Slot) : t.shapeAt p = t'.shapeAt p := by
  refine Option.ext fun x => ?_
  rw [h.shapeAt_iff, h'.shapeAt_iff]

/-! ## The invariant -/

/-- A trie of these keys in which every internal node is needed. -/
structure Tight (t : HandleTrie ρ) (K : Finset Key) : Prop where
  wf : t.Wf
  bound : ∀ k, k ∈ K ↔ ∃ v, t.Binds k v
  shared : ∀ p a, t.nodeAt p = some a → ¬ 0 < (t.node a).suffixStart → p ≠ [] →
    ∃ k ∈ K, ∃ k' ∈ K, k ≠ k' ∧ p <+: code k ∧ p <+: code k'

namespace Tight

theorem mem_of_leaf (h : Tight t K) (ha : t.nodeAt p = some a)
    (hl : 0 < (t.node a).suffixStart) : (t.node a).suffix ∈ K := by
  obtain ⟨v, hv⟩ := (h.wf.fits p a ha).value hl
  exact (h.bound _).mpr ⟨v, p, a, ha, hl, rfl, hv⟩

/-- The leaf of a key. -/
theorem exists_leaf (h : Tight t K) (hk : k ∈ K) : ∃ p a, t.nodeAt p = some a ∧
    0 < (t.node a).suffixStart ∧ (t.node a).suffix = k ∧ p <+: code k := by
  obtain ⟨v, p, a, ha, hl, rfl, -⟩ := (h.bound k).mp hk
  exact ⟨p, a, ha, hl, rfl, (h.wf.fits p a ha).path hl⟩

/-- The path of a leaf does not lead to another key. -/
theorem key_of_prefix (h : Tight t K) (hk : k ∈ K) (ha : t.nodeAt p = some a)
    (hl : 0 < (t.node a).suffixStart) (hp : p <+: code k) : (t.node a).suffix = k := by
  obtain ⟨v, hb⟩ := (h.bound k).mp hk
  exact h.wf.suffix_of_binds ha hp hl hb

/-- A leaf is no deeper than its key needs. -/
theorem length_le_leafDepth (h : Tight t K) (ha : t.nodeAt p = some a)
    (hl : 0 < (t.node a).suffixStart) : p.length ≤ leafDepth K (t.node a).suffix := by
  have hpath := (h.wf.fits p a ha).path hl
  rcases List.eq_nil_or_concat p with rfl | ⟨q, c, rfl⟩
  · exact Nat.zero_le _
  · rw [List.concat_eq_append] at ha hpath ⊢
    obtain ⟨b, hb, hkid⟩ := walk_prefix ha
    rw [List.length_append, List.length_singleton, leafDepth, Nat.add_comm 1]
    refine Nat.succ_le_succ ?_
    by_cases hq : q = []
    · rw [hq]
      exact Nat.zero_le _
    · have hin : ¬ 0 < (t.node b).suffixStart := fun hlb => by
        have := h.wf.laid.below_leaf hb hlb ha (List.prefix_append q [c])
        simp at this
      obtain ⟨k₁, hk₁, k₂, hk₂, hne, hp₁, hp₂⟩ := h.shared q b hb hin hq
      -- one of the two keys that share the parent is not the key of the leaf
      obtain ⟨k', hk', hne', hp'⟩ : ∃ k' ∈ K, k' ≠ (t.node a).suffix ∧ q <+: code k' := by
        by_cases h₁ : k₁ = (t.node a).suffix
        · exact ⟨k₂, hk₂, fun h₂ => hne (h₁.trans h₂.symm), hp₂⟩
        · exact ⟨k₁, hk₁, h₁, hp₁⟩
      have hvalid := (h.wf.fits _ a ha).key hl
      obtain ⟨v', hb'⟩ := (h.bound k').mp hk'
      have hvalid' := h.wf.valid_of_binds hb'
      have hpq : q <+: code (t.node a).suffix := (List.prefix_append q [c]).trans hpath
      have hlen : q.length ≤ commonPrefix (t.node a).suffix k' := by
        refine le_commonPrefix_iff.mpr ⟨?_, ?_, take_eq_of_code hvalid.2 hvalid'.2 ?_⟩
        · simpa using hpq.length_le
        · simpa using hp'.length_le
        · rw [← List.prefix_iff_eq_take.mp hpq, ← List.prefix_iff_eq_take.mp hp']
      exact hlen.trans (Finset.le_sup (f := commonPrefix (t.node a).suffix)
        (Finset.mem_erase.mpr ⟨hne', hk'⟩))

/-- A leaf is as deep as its key needs. -/
theorem leafDepth_le_length (h : Tight t K) (ha : t.nodeAt p = some a)
    (hl : 0 < (t.node a).suffixStart) : leafDepth K (t.node a).suffix ≤ p.length := by
  have hpath := (h.wf.fits p a ha).path hl
  have hpos : 0 < p.length := by
    refine List.length_pos_of_ne_nil fun hp => ?_
    rw [hp, nodeAt_nil] at ha
    exact h.wf.root_inner (Option.some.inj ha ▸ hl)
  have hsup : (K.erase (t.node a).suffix).sup (commonPrefix (t.node a).suffix) ≤ p.length - 1 := by
    refine Finset.sup_le fun k' hk' => ?_
    obtain ⟨hne, hk'⟩ := Finset.mem_erase.mp hk'
    by_contra hlt
    have hle : p.length ≤ commonPrefix (t.node a).suffix k' := by omega
    obtain ⟨-, -, htake⟩ := le_commonPrefix_iff.mp hle
    refine hne (h.key_of_prefix hk' ha hl ?_).symm
    rw [List.prefix_iff_eq_take.mp hpath, code_take, htake, ← code_take]
    exact List.take_prefix _ _
  rw [leafDepth]
  omega

/-- **A tight trie is the tree of its keys.** -/
theorem canonical (h : Tight t K) : Canonical K t where
  root := h.wf.root_inner
  leaf := fun k hk => by
    obtain ⟨p, a, ha, hl, rfl, hp⟩ := h.exists_leaf hk
    have hlen := Nat.le_antisymm (h.length_le_leafDepth ha hl) (h.leafDepth_le_length ha hl)
    refine ⟨p, a, ha, hp, rfl, hlen, ((h.wf.fits p a ha).start hl).trans hlen, ?_⟩
    intro q b hb hlb hkb
    exact h.wf.leaf_on_path hb hlb (hkb ▸ (h.wf.fits q b hb).path hlb) ha hl hp
  only := fun p a ha hl => h.mem_of_leaf ha hl
  inner := fun p hp => by
    constructor
    · rintro ⟨a, ha, hin⟩
      obtain ⟨k, hk, k', hk', hne, hpk, hpk'⟩ := h.shared p a ha hin hp
      obtain ⟨v, hb⟩ := (h.bound k).mp hk
      obtain ⟨v', hb'⟩ := (h.bound k').mp hk'
      have hcode := List.prefix_iff_eq_take.mp hpk
      have htake : k.take p.length = k'.take p.length :=
        take_eq_of_code (h.wf.valid_of_binds hb).2 (h.wf.valid_of_binds hb').2
          (hcode.symm.trans (List.prefix_iff_eq_take.mp hpk'))
      refine ⟨k.take p.length, ?_, k, hk, k', hk', hne, List.take_prefix _ _, ?_⟩
      · rwa [← code_take]
      · rw [htake]
        exact List.take_prefix _ _
    · rintro ⟨w, rfl, k, hk, k', hk', hne, hw, hw'⟩
      obtain ⟨p', a, ha, hl, rfl, hp'⟩ := h.exists_leaf hk
      have hcode : code w <+: code (t.node a).suffix := hw.map TLB
      have hnot : ¬ p' <+: code w := fun hpw =>
        hne (h.key_of_prefix hk' ha hl (hpw.trans (hw'.map TLB)))
      -- the leaf is below the shared prefix
      obtain ⟨r, rfl⟩ := (List.prefix_or_prefix_of_prefix hp' hcode).resolve_left hnot
      obtain ⟨b, hb, -⟩ := walk_prefix ha
      refine ⟨b, hb, fun hlb => hnot ?_⟩
      rw [h.wf.laid.below_leaf hb hlb ha (List.prefix_append _ _)]
  value := fun p a ha hin => (h.wf.fits p a ha).inner_value hin

end Tight

/-- A new trie has no keys. -/
theorem new_tight {ks : Nat} {h0 : 0 < ks} {h1 : ks ≤ 255} :
    Tight (new ks h0 h1 : HandleTrie ρ) ∅ where
  wf := new_wf
  bound := fun k => by
    simp only [Finset.notMem_empty, false_iff, not_exists]
    exact new_wf.find_eq_none.mp (find_new k)
  shared := fun p a ha _ hp => absurd (nodeAt_new ha).1 hp

/-- **One insertion adds its key and keeps the trie tight.** -/
theorem insert_tight (ops : TrieValue ρ σ) (h : Tight t K) (hk : ValidKey t.keySize k) (v : ρ)
    (s : σ) : ∃ r, t.insert ops k v s = .ok r ∧ r.2.1.keySize = t.keySize ∧
      Tight r.2.1 (Insert.insert k K) := by
  obtain ⟨r, hr, hins, hev⟩ := insert_total ops h.wf hk v s
  have hkey : ∃ w, r.2.1.Binds k w := by
    rcases hins.result with ⟨hb, -, hbinds⟩ | ⟨-, -, -, hbinds⟩
    · exact ⟨r.1, (hbinds k r.1).mpr hb⟩
    · exact ⟨v, (hbinds k v).mpr (Or.inr ⟨rfl, rfl⟩)⟩
  have hbound : ∀ k', k' ∈ Insert.insert k K ↔ ∃ w, r.2.1.Binds k' w := by
    intro k'
    rw [Finset.mem_insert, h.bound]
    constructor
    · rintro (rfl | ⟨w, hw⟩)
      · exact hkey
      · exact ⟨w, hev.binds hw⟩
    · rintro ⟨w, hw⟩
      by_cases hk' : k' = k
      · exact Or.inl hk'
      · exact Or.inr ⟨w, hev.old k' w hk' hw⟩
  refine ⟨r, hr, hins.keySize, hins.wf, hbound, ?_⟩
  intro p a ha hin hp
  rcases hev.fresh p a ha hin with ha' | ⟨hpk, k', w, hne, hw, hpk'⟩
  · obtain ⟨k₁, hk₁, k₂, hk₂, hne, hp₁, hp₂⟩ := h.shared p a ha' (hev.inner_of_inner ha' hin) hp
    exact ⟨k₁, Finset.mem_insert_of_mem hk₁, k₂, Finset.mem_insert_of_mem hk₂, hne, hp₁, hp₂⟩
  · exact ⟨k, Finset.mem_insert_self .., k', Finset.mem_insert_of_mem ((h.bound k').mpr ⟨w, hw⟩),
      fun he => hne he.symm, hpk, hpk'⟩

theorem insertAll_tight (ops : TrieValue ρ σ) : ∀ (entries : List (Key × ρ)) (t : HandleTrie ρ)
    (K : Finset Key) (s : σ), Tight t K → (∀ e ∈ entries, ValidKey t.keySize e.1) →
    ∃ r, t.insertAll ops s entries = .ok r ∧ Tight r.1 ((entries.map Prod.fst).toFinset ∪ K)
  | [], t, K, s, h, _ => ⟨(t, s), rfl, by simpa using h⟩
  | (key, value) :: entries, t, K, s, h, hvalid => by
    obtain ⟨r, hr, hsize, h₁⟩ := insert_tight ops h (hvalid _ List.mem_cons_self) value s
    obtain ⟨r', hr', h₂⟩ := insertAll_tight ops entries r.2.1 _ r.2.2 h₁ fun e he => by
      rw [hsize]
      exact hvalid e (List.mem_cons_of_mem _ he)
    refine ⟨r', ?_, ?_⟩
    · rw [insertAll, hr]
      exact hr'
    · rwa [List.map_cons, List.toFinset_cons, Finset.insert_union, ← Finset.union_insert]

/--
**The tree depends on the set of the keys only.**

Whatever the order of the insertions, their repetitions and their values, a new trie ends
as the tree of the keys.
-/
theorem insertAll_canonical (ops : TrieValue ρ σ) {keySize : Nat} (h0 : 0 < keySize)
    (h1 : keySize ≤ 255) (K : Finset Key) (hK : ∀ k ∈ K, ValidKey keySize k)
    (entries entries' : List (Key × ρ)) (hset : (entries.map Prod.fst).toFinset = K)
    (hset' : (entries'.map Prod.fst).toFinset = K) (s : σ) :
    ∃ (t₀ t t' : HandleTrie ρ) (s₁ s₂ : σ), construct keySize = .ok t₀ ∧
      t₀.insertAll ops s entries = .ok (t, s₁) ∧ t₀.insertAll ops s entries' = .ok (t', s₂) ∧
      Canonical K t ∧ Canonical K t' ∧ ∀ p, t.shapeAt p = t'.shapeAt p := by
  have hrun : ∀ es : List (Key × ρ), (es.map Prod.fst).toFinset = K →
      ∃ r, (new keySize h0 h1).insertAll ops s es = .ok r ∧ Canonical K r.1 := by
    intro es hes
    have hvalid : ∀ e ∈ es, ValidKey keySize e.1 := fun e he =>
      hK e.1 (hes ▸ List.mem_toFinset.mpr (List.mem_map_of_mem he))
    obtain ⟨r, hr, ht⟩ := insertAll_tight ops es (new keySize h0 h1) ∅ s new_tight hvalid
    rw [Finset.union_empty, hes] at ht
    exact ⟨r, hr, ht.canonical⟩
  obtain ⟨⟨t, s₁⟩, hr, ht⟩ := hrun entries hset
  obtain ⟨⟨t', s₂⟩, hr', ht'⟩ := hrun entries' hset'
  refine ⟨new keySize h0 h1, t, t', s₁, s₂, ?_, hr, hr', ht, ht', ht.shapeAt_eq ht'⟩
  unfold construct
  rw [dif_neg (by omega)]

/-- Three keys in two orders, one of them inserted twice. -/
theorem insertAll_canonical_three :
    ∃ (t₀ t t' : HandleTrie Nat) (s₁ s₂ : Nat → Nat), construct 2 = .ok t₀ ∧
      t₀.insertAll counterValue (fun _ => 1) [([48, 48], 0), ([97, 48], 1), ([48, 49], 2)]
        = .ok (t, s₁) ∧
      t₀.insertAll counterValue (fun _ => 1)
        [([48, 49], 0), ([48, 48], 1), ([97, 48], 2), ([48, 49], 3)] = .ok (t', s₂) ∧
      Canonical {[48, 48], [48, 49], [97, 48]} t ∧ Canonical {[48, 48], [48, 49], [97, 48]} t' ∧
      ∀ p, t.shapeAt p = t'.shapeAt p :=
  insertAll_canonical counterValue (by decide) (by decide) {[48, 48], [48, 49], [97, 48]}
    (by decide +kernel) [([48, 48], 0), ([97, 48], 1), ([48, 49], 2)]
    [([48, 49], 0), ([48, 48], 1), ([97, 48], 2), ([48, 49], 3)] (by decide +kernel)
    (by decide +kernel) fun _ => 1

end HandleTrie

end AttentionBroker
