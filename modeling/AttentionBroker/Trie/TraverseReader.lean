import Mathlib.Algebra.GroupWithZero.Nat
import Mathlib.Algebra.Order.BigOperators.Group.List
import Mathlib.Algebra.Order.Group.Nat
import AttentionBroker.Trie.Readers

/-!
# A traversal that overlaps insertions

The stack of `traverse` holds addresses while insertions change the tree around them. What
keeps the traversal right is where its entries are: no entry is above or below another one
(`Apart`), a key visited is not below any entry, and a key that was there at the start is
visited or below an entry. An insertion moves entries down only, which keeps all of it.

Every visit replaces an entry by up to 16 entries one level deeper, so `weight` gives an
entry 17 times the weight of one below it.
-/

namespace AttentionBroker.HandleTrie

open Infra

variable {ρ σ δ : Type} {t t' : HandleTrie ρ} {p q p' q' : List Slot} {a b : Nat} {c : Slot}
  {k : Key} {present : Key → Prop}

/-! ## Paths apart -/

/-- Neither path leads through the other. -/
def Apart (p q : List Slot) : Prop := ¬ p <+: q ∧ ¬ q <+: p

theorem Apart.symm (h : Apart p q) : Apart q p := ⟨h.2, h.1⟩

/-- Paths that are apart do not meet further down. -/
theorem Apart.not_both (h : Apart p q) {l : List Slot} (hp : p <+: l) : ¬ q <+: l := fun hq =>
  (List.prefix_or_prefix_of_prefix hp hq).elim h.1 h.2

theorem Apart.extend (h : Apart p q) (hp : p <+: p') (hq : q <+: q') : Apart p' q' :=
  ⟨fun h' => h.not_both (hp.trans h') hq, fun h' => h.not_both hp (hq.trans h')⟩

theorem apart_of_slot {c c' : Slot} (h : c ≠ c') (p : List Slot) :
    Apart (p ++ [c]) (p ++ [c']) := by
  constructor <;> intro hp
  · have := hp.eq_of_length (by simp)
    simp at this
    exact h this
  · have := hp.eq_of_length (by simp)
    simp at this
    exact h this.symm

/-! ## The weight of the stack -/

open Classical in
/-- The length of the path to a node. -/
noncomputable def depth (t : HandleTrie ρ) (a : Nat) : Nat :=
  if h : ∃ p, t.nodeAt p = some a then h.choose.length else 0

theorem Wf.depth_eq (wf : t.Wf) (ha : t.nodeAt p = some a) : t.depth a = p.length := by
  have h : ∃ p, t.nodeAt p = some a := ⟨p, ha⟩
  rw [depth, dif_pos h, wf.tree _ _ _ h.choose_spec ha]

/-- A bound on the visits below a node, whatever is inserted there. -/
noncomputable def weight (t : HandleTrie ρ) (a : Nat) : Nat := 17 ^ (t.keySize + 1 - t.depth a)

/-- A bound on the visits to come. -/
noncomputable def traverseMeasure (t : HandleTrie ρ) (st : TraverseState δ) : Nat :=
  (st.nodeStack.map t.weight).sum

theorem weight_pos (t : HandleTrie ρ) (a : Nat) : 0 < t.weight a := Nat.pow_pos (by omega)

/-- The children of a node weigh less than the node. -/
theorem Wf.weight_children (wf : t.Wf) (ha : t.nodeAt p = some a)
    (hin : ¬ 0 < (t.node a).suffixStart) : ((t.childList a).map t.weight).sum < t.weight a := by
  have hdepth := (wf.fits p a ha).inner_depth hin
  have hchild : ∀ x ∈ (t.childList a).map t.weight, x ≤ 17 ^ (t.keySize - p.length) := by
    intro x hx
    obtain ⟨b, hb, rfl⟩ := List.mem_map.mp hx
    obtain ⟨c, hc⟩ := mem_childList.mp hb
    have hb' := nodeAt_kid ha hc
    rw [weight, wf.depth_eq hb', List.length_append, List.length_singleton,
      Nat.add_sub_add_right]
  have hlen : (t.childList a).length ≤ 16 := by
    have := List.length_filterMap_le (t.kids a) (List.finRange 16)
    rwa [List.length_finRange] at this
  calc ((t.childList a).map t.weight).sum
      ≤ ((t.childList a).map t.weight).length • 17 ^ (t.keySize - p.length) :=
        List.sum_le_card_nsmul _ _ hchild
    _ ≤ 16 * 17 ^ (t.keySize - p.length) := by
        rw [List.length_map, Nat.nsmul_eq_mul]
        exact Nat.mul_le_mul_right _ hlen
    _ < 17 ^ (t.keySize - p.length) * 17 := by
        have := Nat.pow_pos (n := t.keySize - p.length) (show 0 < 17 by omega)
        omega
    _ = t.weight a := by
        rw [weight, wf.depth_eq ha, ← Nat.pow_succ]
        congr 1
        omega

/-- An insertion moves nodes down only. -/
theorem weight_le (wf : t.Wf) (wf' : t'.Wf) (e : Extends t t') (ha : t.nodeAt p = some a) :
    t'.weight a ≤ t.weight a := by
  obtain ⟨r, hr⟩ := e.nodeAt ha
  rw [weight, weight, wf.depth_eq ha, wf'.depth_eq hr, e.keySize, List.length_append]
  exact Nat.pow_le_pow_right (by omega) (by omega)

/-! ## The invariant -/

/-- A visit function that never returns true, with a record of the keys it was called on. -/
def recording (f : TrieNode ρ → δ → δ) (n : TrieNode ρ) (data : δ × List Key) :
    Except Fault (Bool × (δ × List Key)) :=
  .ok (false, f n data.1, data.2 ++ [n.suffix])

/-- The invariant of a `traverse` that overlaps insertions. `present` are the keys that were
there when it began. -/
structure Sweeping (present : Key → Prop) (t : HandleTrie ρ)
    (st : TraverseState (δ × List Key)) : Prop where
  stack : ∀ a ∈ st.nodeStack, ∃ p, t.nodeAt p = some a
  apart : st.nodeStack.Pairwise fun a b =>
    ∀ p q, t.nodeAt p = some a → t.nodeAt q = some b → Apart p q
  nodup : st.data.2.Nodup
  visited : ∀ k ∈ st.data.2, ∃ v, t.Binds k v
  behind : ∀ k ∈ st.data.2, ∀ a ∈ st.nodeStack, ∀ p, t.nodeAt p = some a → ¬ p <+: code k
  bound : ∀ k, present k → ∃ v, t.Binds k v
  covered : ∀ k, present k → k ∈ st.data.2 ∨
    ∃ a ∈ st.nodeStack, ∃ p, t.nodeAt p = some a ∧ p <+: code k

/-- What `traverse` returns: the record of the keys. -/
def Swept (present : Key → Prop) (t : HandleTrie ρ) (data : δ × List Key) : Prop :=
  data.2.Nodup ∧ (∀ k, present k → k ∈ data.2) ∧ ∀ k ∈ data.2, ∃ v, t.Binds k v

namespace Sweeping

variable {st : TraverseState (δ × List Key)}

/-- **Insertions keep the invariant.** -/
theorem extend (h : Sweeping present t st) (wf : t.Wf) (wf' : t'.Wf) (e : Extends t t') :
    Sweeping present t' st := by
  -- the path of an entry now goes through the one it had
  have hpath : ∀ a ∈ st.nodeStack, ∀ p', t'.nodeAt p' = some a →
      ∃ p, t.nodeAt p = some a ∧ p <+: p' := by
    intro a ha p' hp'
    obtain ⟨p, hp⟩ := h.stack a ha
    obtain ⟨r, hr⟩ := e.nodeAt hp
    rw [wf'.tree _ _ _ hp' hr]
    exact ⟨p, hp, List.prefix_append p r⟩
  constructor
  · intro a ha
    obtain ⟨p, hp⟩ := h.stack a ha
    obtain ⟨r, hr⟩ := e.nodeAt hp
    exact ⟨_, hr⟩
  · refine h.apart.imp_of_mem fun {a b} ha hb hab p' q' hp' hq' => ?_
    obtain ⟨p, hp, hpp⟩ := hpath a ha p' hp'
    obtain ⟨q, hq, hqq⟩ := hpath b hb q' hq'
    exact (hab p q hp hq).extend hpp hqq
  · exact h.nodup
  · intro k hk
    obtain ⟨v, hv⟩ := h.visited k hk
    exact ⟨v, e.binds hv⟩
  · intro k hk a ha p' hp' hpk
    obtain ⟨p, hp, hpp⟩ := hpath a ha p' hp'
    exact h.behind k hk a ha p hp (hpp.trans hpk)
  · intro k hk
    obtain ⟨v, hv⟩ := h.bound k hk
    exact ⟨v, e.binds hv⟩
  · intro k hk
    refine (h.covered k hk).imp_right fun ⟨a, ha, p, hp, hpk⟩ => ⟨a, ha, ?_⟩
    by_cases hl : 0 < (t.node a).suffixStart
    · -- the leaf that covers the key is the leaf of the key
      obtain ⟨v, hv⟩ := h.bound k hk
      have hkey := wf.suffix_of_binds hp hpk hl hv
      obtain ⟨r, hr, hl', hs, -⟩ := e.leaf p a hp hl
      exact ⟨p ++ r, hr, hkey ▸ hs ▸ (wf'.fits _ a hr).path hl'⟩
    · exact ⟨p, (e.inner p a hp hl).1, hpk⟩

variable {stack : List Nat} {data : δ × List Key}

/-- A visit of a leaf records its key. -/
theorem visit_leaf (h : Sweeping present t ⟨a :: stack, data⟩) (wf : t.Wf)
    (hl : 0 < (t.node a).suffixStart) (d : δ) :
    Sweeping present t ⟨stack, (d, data.2 ++ [(t.node a).suffix])⟩ := by
  obtain ⟨p, hp⟩ := h.stack a List.mem_cons_self
  have hfits := wf.fits p a hp
  have hpath := hfits.path hl
  obtain ⟨v, hv⟩ := hfits.value hl
  obtain ⟨hapart, hrest⟩ := List.pairwise_cons.mp h.apart
  have hnew : (t.node a).suffix ∉ data.2 := fun hmem =>
    h.behind _ hmem a List.mem_cons_self p hp hpath
  constructor
  · exact fun b hb => h.stack b (List.mem_cons_of_mem _ hb)
  · exact hrest
  · exact List.nodup_append.mpr ⟨h.nodup, List.nodup_singleton _, fun x hx y hy hxy =>
      hnew (List.mem_singleton.mp hy ▸ hxy ▸ hx)⟩
  · intro k hk
    rcases List.mem_append.mp hk with hk | hk
    · exact h.visited k hk
    · rw [List.mem_singleton.mp hk]
      exact ⟨v, p, a, hp, hl, rfl, hv⟩
  · intro k hk b hb q hq
    rcases List.mem_append.mp hk with hk | hk
    · exact h.behind k hk b (List.mem_cons_of_mem _ hb) q hq
    · rw [List.mem_singleton.mp hk]
      exact (hapart b hb p q hp hq).not_both hpath
  · exact h.bound
  · intro k hk
    rcases h.covered k hk with hmem | ⟨b, hb, q, hq, hqk⟩
    · exact Or.inl (List.mem_append_left _ hmem)
    · rcases List.mem_cons.mp hb with rfl | hb
      · obtain ⟨w, hw⟩ := h.bound k hk
        have hkey := wf.suffix_of_binds hq hqk hl hw
        exact Or.inl (List.mem_append_right _ (List.mem_singleton.mpr hkey.symm))
      · exact Or.inr ⟨b, hb, q, hq, hqk⟩

/-- A visit of an internal node replaces it by its children. -/
theorem visit_inner (h : Sweeping present t ⟨a :: stack, data⟩) (wf : t.Wf)
    (hin : ¬ 0 < (t.node a).suffixStart) : Sweeping present t ⟨t.childList a ++ stack, data⟩ := by
  obtain ⟨p, hp⟩ := h.stack a List.mem_cons_self
  obtain ⟨hapart, hrest⟩ := List.pairwise_cons.mp h.apart
  have hkid : ∀ c b, t.kids a c = some b → t.nodeAt (p ++ [c]) = some b := fun c b =>
    nodeAt_kid hp
  -- a child is one slot below the node
  have hchild : ∀ b ∈ t.childList a, ∀ q, t.nodeAt q = some b → ∃ c, q = p ++ [c] := by
    intro b hb q hq
    obtain ⟨c, hc⟩ := mem_childList.mp hb
    exact ⟨c, wf.tree _ _ _ hq (hkid c b hc)⟩
  constructor
  · intro b hb
    rcases List.mem_append.mp hb with hb | hb
    · obtain ⟨c, hc⟩ := mem_childList.mp hb
      exact ⟨_, hkid c b hc⟩
    · exact h.stack b (List.mem_cons_of_mem _ hb)
  · refine List.pairwise_append.mpr ⟨?_, hrest, ?_⟩
    · unfold childList
      rw [List.pairwise_filterMap]
      refine (List.nodup_finRange 16).imp fun {c c'} hcc b hb b' hb' q q' hq hq' => ?_
      rw [wf.tree _ _ _ hq (hkid c b hb), wf.tree _ _ _ hq' (hkid c' b' hb')]
      exact apart_of_slot hcc p
    · intro b hb b' hb' q q' hq hq'
      obtain ⟨c, rfl⟩ := hchild b hb q hq
      exact (hapart b' hb' p q' hp hq').extend (List.prefix_append p [c]) (List.prefix_refl _)
  · exact h.nodup
  · exact h.visited
  · intro k hk b hb q hq hqk
    rcases List.mem_append.mp hb with hb | hb
    · obtain ⟨c, rfl⟩ := hchild b hb q hq
      exact h.behind k hk a List.mem_cons_self p hp ((List.prefix_append p [c]).trans hqk)
    · exact h.behind k hk b (List.mem_cons_of_mem _ hb) q hq hqk
  · exact h.bound
  · intro k hk
    refine (h.covered k hk).imp_right fun ⟨b, hb, q, hq, hqk⟩ => ?_
    rcases List.mem_cons.mp hb with rfl | hb
    · -- the walk to the leaf of the key goes on through one of the children
      obtain ⟨v, hv⟩ := h.bound k hk
      obtain ⟨c, y, hc, hpath⟩ := wf.child_on_path hq hqk hin hv
      exact ⟨y, List.mem_append_left _ (mem_childList.mpr ⟨c, hc⟩), _, nodeAt_kid hq hc, hpath⟩
    · exact ⟨b, List.mem_append_right _ hb, q, hq, hqk⟩

end Sweeping

/-- **`traverse` is a reader.** -/
theorem traverse_reads (f : TrieNode ρ → δ → δ) (present : Key → Prop) :
    Reads (fun t st => traverseBody t (recording f) st) (Sweeping present) traverseMeasure
      (Swept present) where
  visit := by
    rintro t ⟨stack, data⟩ wf h
    show Progress _ _ _ _ (traverseBody t (recording f) ⟨stack, data⟩)
    cases stack with
    | nil =>
      refine ⟨h.nodup, fun k hk => ?_, h.visited⟩
      exact (h.covered k hk).resolve_right fun ⟨a, ha, _⟩ => absurd ha List.not_mem_nil
    | cons a stack =>
      by_cases hl : 0 < (t.node a).suffixStart
      · have hbody : traverseBody t (recording f) ⟨a :: stack, data⟩
            = .ok (.inl ⟨stack, (f (t.node a) data.1, data.2 ++ [(t.node a).suffix])⟩) := by
          unfold traverseBody recording
          simp only [bind, Except.bind, if_pos hl, Bool.false_eq_true, if_false]
        rw [hbody]
        refine ⟨h.visit_leaf wf hl _, ?_⟩
        show (stack.map t.weight).sum < ((a :: stack).map t.weight).sum
        rw [List.map_cons, List.sum_cons]
        exact Nat.lt_add_of_pos_left (t.weight_pos a)
      · obtain ⟨p, hp⟩ := h.stack a List.mem_cons_self
        have hbody : traverseBody t (recording f) ⟨a :: stack, data⟩
            = .ok (.inl ⟨t.childList a ++ stack, data⟩) := by
          unfold traverseBody
          simp only [bind, Except.bind, if_neg hl, pushChildren_eq]
          rfl
        rw [hbody]
        refine ⟨h.visit_inner wf hl, ?_⟩
        show ((t.childList a ++ stack).map t.weight).sum < ((a :: stack).map t.weight).sum
        rw [List.map_append, List.sum_append, List.map_cons, List.sum_cons]
        exact Nat.add_lt_add_right (wf.weight_children hp hl) _
  extend := by
    rintro t t' st wf wf' e h
    refine ⟨h.extend wf wf' e, ?_⟩
    unfold traverseMeasure
    refine List.sum_le_sum fun a ha => ?_
    obtain ⟨p, hp⟩ := h.stack a ha
    exact weight_le wf wf' e hp

/-- The state in which `traverse` enters its loop. -/
def startTraverse (t : HandleTrie ρ) (s : σ) (data : δ) :
    Overlapped ρ σ (TraverseState (δ × List Key)) (δ × List Key) :=
  { trie := t, store := s, reader := .inl { nodeStack := [t.root], data := (data, []) } }

/--
**A `traverse` that overlaps insertions visits nothing twice and misses nothing old.**

It ends, whatever is inserted, and no visit fails. When it has returned, no key was visited
twice, every key that was there when it began was visited, and every key visited is in the
trie.
-/
theorem traverse_overlapped (ops : TrieValue ρ σ) {t : HandleTrie ρ} (ht : t.Reachable ops)
    (f : TrieNode ρ → δ → δ) (data : δ) (s : σ) (as : List (Action ρ))
    (hvalid : ∀ a ∈ as, a.Valid t.keySize)
    {s' : Overlapped ρ σ (TraverseState (δ × List Key)) (δ × List Key)}
    (hrun : run (Overlapped.step ops fun t st => traverseBody t (recording f) st)
      (startTraverse t s data) as = some s') :
    visits as ≤ 17 ^ (t.keySize + 1) + 1 ∧
    (∀ st, s'.reader = .inl st → ∀ a : Action ρ, a.Valid t.keySize →
      ∃ s'', s'.step ops (fun t st => traverseBody t (recording f) st) a = some s'') ∧
    ∀ d keys, s'.reader = .inr (d, keys) → keys.Nodup ∧ (∀ k v, t.Binds k v → k ∈ keys) ∧
      ∀ k ∈ keys, ∃ v, s'.trie.Binds k v := by
  have wf := ht.wf
  have hinit : Sweeping (fun k => ∃ v, t.Binds k v) t
      (⟨[t.root], (data, [])⟩ : TraverseState (δ × List Key)) :=
    { stack := fun a ha => ⟨[], by rw [List.mem_singleton.mp ha, nodeAt_nil]⟩
      apart := List.pairwise_singleton _ _
      nodup := List.nodup_nil
      visited := fun k hk => absurd hk List.not_mem_nil
      behind := fun k hk => absurd hk List.not_mem_nil
      bound := fun _ hk => hk
      covered := fun k _ => Or.inr ⟨t.root, List.mem_singleton_self _, [], nodeAt_nil t,
        List.nil_prefix⟩ }
  have hreads := traverse_reads f fun k => ∃ v, t.Binds k v
  obtain ⟨wf', hext, hafter⟩ := hreads.run as (startTraverse t s data) s' _ rfl wf hinit hvalid hrun
  have hmeasure : traverseMeasure t (⟨[t.root], (data, [])⟩ : TraverseState (δ × List Key))
      = 17 ^ (t.keySize + 1) := by
    simp [traverseMeasure, weight, wf.depth_eq (nodeAt_nil t)]
  refine ⟨?_, ?_, ?_⟩
  · have hcount := hafter.count_le
    simp only [startTraverse, hmeasure] at hcount
    exact hcount
  · intro st hr a ha
    rw [hr] at hafter
    exact hreads.possible hr wf' hafter.1 (hext.keySize.symm ▸ ha)
  · intro d keys hr
    rw [hr] at hafter
    obtain ⟨hnodup, hpresent, hbound⟩ := hafter.1
    exact ⟨hnodup, fun k v hv => hpresent k ⟨v, hv⟩, hbound⟩

/-- The leaf of `"00"` is on the stack when the insertion of `"01"` pushes it down. -/
theorem traverse_overlapped_split :
    ∃ (t : HandleTrie Nat)
      (s' : Overlapped Nat (Nat → Nat) (TraverseState (Nat × List Key)) (Nat × List Key)),
      t.Reachable counterValue ∧
      run (Overlapped.step counterValue fun t st => traverseBody t (recording fun _ n => n + 1) st)
        (startTraverse t (fun _ => 1) 0) [.visit, .insert [48, 49] 1, .visit, .visit] = some s' ∧
      s'.reader = .inr (1, [[48, 48]]) ∧
      visits [Action.visit, .insert [48, 49] 1, .visit, .visit] ≤ 17 ^ (t.keySize + 1) + 1 ∧
      (∀ st, s'.reader = .inl st → ∀ a : Action Nat, a.Valid t.keySize → ∃ s'', s'.step counterValue
        (fun t st => traverseBody t (recording fun _ n => n + 1) st) a = some s'') ∧
      ∀ d keys, s'.reader = .inr (d, keys) → keys.Nodup ∧ (∀ k v, t.Binds k v → k ∈ keys) ∧
        ∀ k ∈ keys, ∃ v, s'.trie.Binds k v := by
  obtain ⟨t, ht, hsize, s', hrun, hr⟩ : ∃ t : HandleTrie Nat, t.Reachable counterValue ∧
      t.keySize = 2 ∧ ∃ s', run (Overlapped.step counterValue fun t st =>
          traverseBody t (recording fun _ n => n + 1) st)
        (startTraverse t (fun _ => 1) 0) [.visit, .insert [48, 49] 1, .visit, .visit] = some s' ∧
      s'.reader = .inr (1, [[48, 48]]) :=
    ⟨_, ⟨2, by decide, by decide, [.insert [48, 48] 0], fun _ => 1, _, _, by decide +kernel, rfl⟩,
      rfl, _, rfl, rfl⟩
  refine ⟨t, s', ht, hrun, hr, ?_⟩
  exact traverse_overlapped counterValue ht _ 0 _ _ (by rw [hsize]; decide +kernel) hrun

end AttentionBroker.HandleTrie
