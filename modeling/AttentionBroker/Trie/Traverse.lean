import Mathlib.Data.List.Nodup
import Mathlib.Data.Fintype.Card
import AttentionBroker.Trie.Lookup

/-!
# `HandleTrie::traverse` enumerates the map in key order

`preorder` lists the nodes below a node in the order in which the stack of `traverse`
pops them. Leaves in that list, `leaves`, carry the stored keys in strictly increasing
order (`leaves_sorted`), each once.

`traverse_spec` is the bridge: `traverse` calls its visit function on the leaves one after
the other and stops when the function says so. The bound on the iterations is enough
because the nodes below the root are distinct and allocated.
-/

namespace AttentionBroker.HandleTrie

open Infra

variable {ρ σ δ : Type} {t t' : HandleTrie ρ} {p q : List Slot} {a b x y : Nat} {c : Slot}

/-! ## The order of the pops -/

/-- The children of a node, from slot 0 up. -/
def childList (t : HandleTrie ρ) (a : Nat) : List Nat := (List.finRange 16).filterMap (t.kids a)

theorem pushChildren_eq (n : TrieNode ρ) (stack : List Nat) :
    pushChildren n stack = (List.finRange 16).filterMap n.children ++ stack := by
  unfold pushChildren
  generalize List.finRange 16 = l
  rw [List.foldl_reverse]
  induction l with
  | nil => rfl
  | cons c l ih =>
    rw [List.foldr_cons, ih, List.filterMap_cons]
    cases n.children c <;> rfl

theorem mem_childList : b ∈ t.childList a ↔ ∃ c, t.kids a c = some b := by
  simp [childList]

/-- The nodes below `a`, down to `d` levels, in the order they are popped. -/
def preorder (t : HandleTrie ρ) : Nat → Nat → List Nat
  | 0, a => [a]
  | d + 1, a =>
    a :: if 0 < (t.node a).suffixStart then [] else (t.childList a).flatMap (preorder t d)

/-- There are only leaves `d` levels below `a`. -/
def Shallow (t : HandleTrie ρ) : Nat → Nat → Prop
  | 0, a => 0 < (t.node a).suffixStart
  | d + 1, a => ¬ 0 < (t.node a).suffixStart → ∀ b ∈ t.childList a, Shallow t d b

/-- The leaves among some nodes. -/
def leavesIn (t : HandleTrie ρ) (l : List Nat) : List (TrieNode ρ) :=
  (l.filter fun a => 0 < (t.node a).suffixStart).map t.node

/-- The leaves of the trie, in the order they are visited. -/
def leaves (t : HandleTrie ρ) : List (TrieNode ρ) := t.leavesIn (t.preorder t.keySize t.root)

/-- Calls the visit function on one node after the other, until it returns true. -/
def visitAll (visit : TrieNode ρ → δ → Except Fault (Bool × δ)) :
    List (TrieNode ρ) → δ → Except Fault δ
  | [], data => .ok data
  | n :: ns, data => do
    let (stop, data) ← visit n data
    if stop then .ok data else visitAll visit ns data

theorem leavesIn_cons_leaf (h : 0 < (t.node a).suffixStart) (l : List Nat) :
    t.leavesIn (a :: l) = t.node a :: t.leavesIn l := by
  simp [leavesIn, h]

theorem leavesIn_cons_inner (h : ¬ 0 < (t.node a).suffixStart) (l : List Nat) :
    t.leavesIn (a :: l) = t.leavesIn l := by
  simp [leavesIn, h]

theorem preorder_leaf (h : 0 < (t.node a).suffixStart) : ∀ d, t.preorder d a = [a]
  | 0 => rfl
  | d + 1 => by rw [preorder, if_pos h]

theorem preorder_inner (h : ¬ 0 < (t.node a).suffixStart) (d : Nat) :
    t.preorder (d + 1) a = a :: (t.childList a).flatMap (t.preorder d) := by
  rw [preorder, if_neg h]

/-- The nodes the stack stands for. Each entry comes with the depth of what is below it. -/
def pending (t : HandleTrie ρ) (stack : List (Nat × Nat)) : List Nat :=
  stack.flatMap fun e => t.preorder e.2 e.1

/-- **The loop of `traverse` visits the leaves its stack stands for.** -/
theorem traverse_loop (visit : TrieNode ρ → δ → Except Fault (Bool × δ)) :
    ∀ (n : Nat) (stack : List (Nat × Nat)) (data : δ), (∀ e ∈ stack, t.Shallow e.2 e.1) →
      (t.pending stack).length < n →
      loop .diverges (traverseBody t visit) n { nodeStack := stack.map Prod.fst, data := data }
        = visitAll visit (t.leavesIn (t.pending stack)) data := by
  intro n
  induction n with
  | zero => intro _ _ _ hn; exact absurd hn (Nat.not_lt_zero _)
  | succ n ih =>
    intro stack data hsh hn
    cases stack with
    | nil => rfl
    | cons e stack =>
      obtain ⟨a, d⟩ := e
      have hpend : t.pending ((a, d) :: stack) = t.preorder d a ++ t.pending stack := rfl
      have hrest : ∀ e ∈ stack, t.Shallow e.2 e.1 := fun e he =>
        hsh e (List.mem_cons_of_mem _ he)
      rw [hpend] at hn ⊢
      by_cases hl : 0 < (t.node a).suffixStart
      · rw [preorder_leaf hl, List.singleton_append] at hn ⊢
        rw [leavesIn_cons_leaf hl, visitAll, loop]
        simp only [List.map_cons, traverseBody, if_pos hl, bind, Except.bind]
        cases hv : visit (t.node a) data with
        | error e => rfl
        | ok r =>
          obtain ⟨stop, data'⟩ := r
          cases stop with
          | true => rfl
          | false => exact ih stack data' hrest (by simpa using hn)
      · cases d with
        | zero => exact absurd (hsh (a, 0) List.mem_cons_self) hl
        | succ d =>
          have hkids := hsh (a, d + 1) List.mem_cons_self hl
          rw [preorder_inner hl, List.cons_append] at hn ⊢
          rw [leavesIn_cons_inner hl, loop]
          -- the children go on the stack, one level less below each
          have hpend' : t.pending ((t.childList a).map (fun b => (b, d)) ++ stack)
              = (t.childList a).flatMap (t.preorder d) ++ t.pending stack := by
            simp [pending, List.flatMap_append, List.flatMap_map]
          have hstack : pushChildren (t.node a) (stack.map Prod.fst)
              = ((t.childList a).map (fun b => (b, d)) ++ stack).map Prod.fst := by
            rw [pushChildren_eq, List.map_append, List.map_map]
            congr 1
            exact (List.map_id _).symm
          simp only [List.map_cons, traverseBody, if_neg hl, bind, Except.bind]
          rw [hstack, ih _ data ?_ (by rw [hpend']; simpa using hn), hpend']
          intro e he
          rcases List.mem_append.mp he with he | he
          · obtain ⟨b, hb, rfl⟩ := List.mem_map.mp he
            exact hkids b hb
          · exact hrest e he

/-! ## What is below a node -/

/-- The slots below a node at path `p` end at the size of the key. -/
theorem Wf.shallow (wf : t.Wf) : ∀ (d : Nat) {p : List Slot} {a : Nat},
    t.nodeAt p = some a → p.length + d = t.keySize → t.Shallow d a := by
  intro d
  induction d with
  | zero =>
    intro p a ha hd
    by_contra hl
    have := (wf.fits p a ha).inner_depth hl
    omega
  | succ d ih =>
    intro p a ha hd _ b hb
    obtain ⟨c, hc⟩ := mem_childList.mp hb
    exact ih (nodeAt_kid ha hc) (by simp; omega)

/-- `preorder` lists only nodes below. -/
theorem nodeAt_of_mem_preorder : ∀ (d : Nat) {p : List Slot} {a x : Nat},
    t.nodeAt p = some a → x ∈ t.preorder d a → ∃ r, t.nodeAt (p ++ r) = some x := by
  intro d
  induction d with
  | zero =>
    intro p a x ha hx
    obtain rfl := List.mem_singleton.mp hx
    exact ⟨[], by rw [List.append_nil, ha]⟩
  | succ d ih =>
    intro p a x ha hx
    by_cases hl : 0 < (t.node a).suffixStart
    · rw [preorder_leaf hl, List.mem_singleton] at hx
      subst hx
      exact ⟨[], by rw [List.append_nil, ha]⟩
    · rw [preorder_inner hl] at hx
      rcases List.mem_cons.mp hx with rfl | hx
      · exact ⟨[], by rw [List.append_nil, ha]⟩
      · obtain ⟨b, hb, hx⟩ := List.mem_flatMap.mp hx
        obtain ⟨c, hc⟩ := mem_childList.mp hb
        have hb' := nodeAt_kid ha hc
        obtain ⟨r, hr⟩ := ih hb' hx
        exact ⟨c :: r, by simpa using hr⟩

/-- `preorder` lists all nodes below. -/
theorem Wf.mem_preorder (wf : t.Wf) : ∀ (d : Nat) {p : List Slot} {a x : Nat} (r : List Slot),
    t.nodeAt p = some a → p.length + d = t.keySize → t.nodeAt (p ++ r) = some x →
      x ∈ t.preorder d a := by
  intro d
  induction d with
  | zero =>
    intro p a x r ha hd hx
    have hlen := wf.key_length hx
    rw [List.length_append] at hlen
    obtain rfl : r = [] := List.length_eq_zero_iff.mp (by omega)
    rw [List.append_nil, ha] at hx
    exact List.mem_singleton.mpr (Option.some.inj hx).symm
  | succ d ih =>
    intro p a x r ha hd hx
    cases r with
    | nil =>
      rw [List.append_nil, ha] at hx
      rw [preorder, Option.some.inj hx]
      exact List.mem_cons_self
    | cons c r =>
      have hx' : t.nodeAt ((p ++ [c]) ++ r) = some x := by simpa using hx
      obtain ⟨b, hkid, hb⟩ := kid_of_nodeAt ha hx
      rw [preorder_inner (wf.laid.inner_of_kid ha hkid)]
      exact List.mem_cons_of_mem _ (List.mem_flatMap.mpr
        ⟨b, mem_childList.mpr ⟨c, hkid⟩, ih r hb (by simp; omega) hx'⟩)

/--
A relation holds along `preorder` when it holds from a node to what is below it and from
one slot to the slots after it.
-/
theorem pairwise_preorder {R : Nat → Nat → Prop}
    (hdown : ∀ p a c r x, t.nodeAt p = some a → ¬ 0 < (t.node a).suffixStart →
      t.nodeAt (p ++ c :: r) = some x → R a x)
    (hright : ∀ p c c' r r' x y, c < c' → t.nodeAt (p ++ c :: r) = some x →
      t.nodeAt (p ++ c' :: r') = some y → R x y) :
    ∀ (d : Nat) {p : List Slot} {a : Nat}, t.nodeAt p = some a → (t.preorder d a).Pairwise R := by
  intro d
  induction d with
  | zero => intro p a _; exact List.pairwise_singleton R a
  | succ d ih =>
    intro p a ha
    by_cases hl : 0 < (t.node a).suffixStart
    · rw [preorder_leaf hl]
      exact List.pairwise_singleton R a
    · have hkid : ∀ c b, t.kids a c = some b → t.nodeAt (p ++ [c]) = some b := fun c b =>
        nodeAt_kid ha
      rw [preorder_inner hl, List.pairwise_cons]
      refine ⟨fun x hx => ?_, List.pairwise_flatMap.mpr ⟨fun b hb => ?_, ?_⟩⟩
      · obtain ⟨b, hb, hx⟩ := List.mem_flatMap.mp hx
        obtain ⟨c, hc⟩ := mem_childList.mp hb
        obtain ⟨r, hr⟩ := nodeAt_of_mem_preorder d (hkid c b hc) hx
        exact hdown p a c r x ha hl (by simpa using hr)
      · obtain ⟨c, hc⟩ := mem_childList.mp hb
        exact ih (hkid c b hc)
      · unfold childList
        rw [List.pairwise_filterMap]
        refine (List.pairwise_lt_finRange 16).imp fun {c c'} hcc b hb b' hb' x hx y hy => ?_
        obtain ⟨r, hr⟩ := nodeAt_of_mem_preorder d (hkid c b hb) hx
        obtain ⟨r', hr'⟩ := nodeAt_of_mem_preorder d (hkid c' b' hb') hy
        exact hright p c c' r r' x y hcc (by simpa using hr) (by simpa using hr')

theorem Wf.nodup_preorder (wf : t.Wf) (d : Nat) (ha : t.nodeAt p = some a) :
    (t.preorder d a).Nodup := by
  refine pairwise_preorder ?_ ?_ d ha
  · rintro p a c r x ha - hx rfl
    have := wf.tree _ _ _ ha hx
    simp at this
  · rintro p c c' r r' x y hcc hx hy rfl
    have := wf.tree _ _ _ hx hy
    simp only [List.append_cancel_left_eq, List.cons.injEq] at this
    exact absurd this.1 (Fin.ne_of_lt hcc)

/-- A key whose path goes through a smaller slot is a smaller key. -/
theorem key_lt_of_slot {k k' : Key} {c c' : Slot} (hk : ∀ b ∈ k, IsHex b)
    (hk' : ∀ b ∈ k', IsHex b) (hp : p ++ [c] <+: code k) (hp' : p ++ [c'] <+: code k')
    (hcc : c < c') : k < k' := by
  have hlen : p.length < k.length := by
    have hle := hp.length_le
    rwa [List.length_append, code_length] at hle
  have hlen' : p.length < k'.length := by
    have hle := hp'.length_le
    rwa [List.length_append, code_length] at hle
  have hpk : (code k).take p.length = p :=
    (List.prefix_iff_eq_take.mp ((List.prefix_append p [c]).trans hp)).symm
  have hpk' : (code k').take p.length = p :=
    (List.prefix_iff_eq_take.mp ((List.prefix_append p [c']).trans hp')).symm
  have htake : k.take p.length = k'.take p.length := take_eq_of_code hk hk' (hpk.trans hpk'.symm)
  have hslot : ∀ {k : Key} {c : Slot} (hl : p.length < k.length), p ++ [c] <+: code k →
      (code k).take p.length = p → TLB k[p.length] = c := by
    intro k c hl hp hpk
    have h1 := List.prefix_iff_eq_take.mp hp
    rw [List.length_append, List.length_singleton, code_take_succ hl, hpk] at h1
    simpa using h1.symm
  refine List.lt_iff_exists.mpr (Or.inr ⟨p.length, hlen, hlen', fun j hj => ?_, ?_⟩)
  · have h1 := congrArg (fun l => l[j]?) htake
    simpa [hj, show j < k.length by omega, show j < k'.length by omega] using h1
  · rw [← TLB_lt_iff (hk _ (List.getElem_mem _)) (hk' _ (List.getElem_mem _)),
      hslot hlen hp hpk, hslot hlen' hp' hpk']
    exact hcc

/-- **The leaves come in strictly increasing order of their keys.** -/
theorem Wf.leaves_sorted (wf : t.Wf) : t.leaves.Pairwise fun m n => m.suffix < n.suffix := by
  unfold leaves leavesIn
  rw [List.pairwise_map, List.pairwise_filter]
  refine pairwise_preorder ?_ ?_ t.keySize (nodeAt_nil t)
  · intro p a c r x _ hl _ hla
    exact absurd (by simpa using hla) hl
  · intro p c c' r r' x y hcc hx hy hlx hly
    have hlx : 0 < (t.node x).suffixStart := by simpa using hlx
    have hly : 0 < (t.node y).suffixStart := by simpa using hly
    have hfx := wf.fits _ _ hx
    have hfy := wf.fits _ _ hy
    have hpx : p ++ [c] <+: code (t.node x).suffix :=
      List.IsPrefix.trans ⟨r, by simp⟩ (hfx.path hlx)
    have hpy : p ++ [c'] <+: code (t.node y).suffix :=
      List.IsPrefix.trans ⟨r', by simp⟩ (hfy.path hly)
    exact key_lt_of_slot (hfx.key hlx).2 (hfy.key hly).2 hpx hpy hcc

theorem Wf.mem_leaves (wf : t.Wf) {n : TrieNode ρ} :
    n ∈ t.leaves ↔ ∃ p a, t.nodeAt p = some a ∧ 0 < (t.node a).suffixStart ∧ t.node a = n := by
  unfold leaves leavesIn
  simp only [List.mem_map, List.mem_filter, decide_eq_true_eq]
  constructor
  · rintro ⟨a, ⟨ha, hl⟩, rfl⟩
    obtain ⟨r, hr⟩ := nodeAt_of_mem_preorder t.keySize (nodeAt_nil t) ha
    exact ⟨_, a, hr, hl, rfl⟩
  · rintro ⟨p, a, ha, hl, rfl⟩
    exact ⟨a, ⟨wf.mem_preorder t.keySize p (nodeAt_nil t) (by simp) (by simpa using ha), hl⟩, rfl⟩

/-- **`traverse` calls its visit function on the leaves in key order.** -/
theorem traverse_spec (wf : t.Wf) (locked : Bool)
    (visit : TrieNode ρ → δ → Except Fault (Bool × δ)) (data : δ) :
    t.traverse locked visit data = visitAll visit t.leaves data := by
  have hsh : ∀ e ∈ [(t.root, t.keySize)], t.Shallow e.2 e.1 := by
    intro e he
    obtain rfl := List.mem_singleton.mp he
    exact wf.shallow t.keySize (nodeAt_nil t) (by simp)
  have hpend : t.pending [(t.root, t.keySize)] = t.preorder t.keySize t.root := by
    simp [pending]
  have hlen : (t.preorder t.keySize t.root).length ≤ t.heap.next := by
    have hsub : t.preorder t.keySize t.root ⊆ List.range t.heap.next := fun x hx => by
      obtain ⟨r, hr⟩ := nodeAt_of_mem_preorder t.keySize (nodeAt_nil t) hx
      exact List.mem_range.mpr (wf.allocated _ x hr)
    have := ((wf.nodup_preorder t.keySize (nodeAt_nil t)).subperm hsub).length_le
    simpa using this
  have h := traverse_loop visit (t.heap.next + 2) [(t.root, t.keySize)] data hsh
    (by rw [hpend]; omega)
  rw [hpend] at h
  exact h

/-! ## The keys -/

/-- The stored keys, in increasing order. -/
def keys (t : HandleTrie ρ) : List Key := t.leaves.map TrieNode.suffix

theorem Wf.keys_sorted (wf : t.Wf) : t.keys.Pairwise (· < ·) := by
  unfold keys
  rw [List.pairwise_map]
  exact wf.leaves_sorted

theorem Wf.keys_nodup (wf : t.Wf) : t.keys.Nodup :=
  wf.keys_sorted.imp fun h he => absurd (he ▸ h) (List.lt_irrefl _)

/-- A leaf carries the value that its key is bound to. -/
theorem Wf.leaf_value (wf : t.Wf) {n : TrieNode ρ} (hn : n ∈ t.leaves) :
    n.value = t.find n.suffix ∧ ∃ v, t.find n.suffix = some v := by
  obtain ⟨p, a, ha, hl, rfl⟩ := wf.mem_leaves.mp hn
  obtain ⟨v, hv⟩ := (wf.fits p a ha).value hl
  have hfind := wf.find_eq_some.mpr ⟨p, a, ha, hl, rfl, hv⟩
  exact ⟨hv.trans hfind.symm, v, hfind⟩

theorem Wf.mem_keys (wf : t.Wf) {k : Key} : k ∈ t.keys ↔ ∃ v, t.find k = some v := by
  unfold keys
  rw [List.mem_map]
  constructor
  · rintro ⟨n, hn, rfl⟩
    exact (wf.leaf_value hn).2
  · rintro ⟨v, hv⟩
    obtain ⟨p, a, ha, hl, hk, -⟩ := wf.find_eq_some.mp hv
    exact ⟨t.node a, wf.mem_leaves.mpr ⟨p, a, ha, hl, rfl⟩, hk⟩

/-! ## Any traversal -/

/-- What every visit of a leaf keeps, a traversal keeps, whether it returns or fails. -/
theorem traverse_keeps {visit : TrieNode ρ → δ → Except Fault (Bool × δ)} {I : δ → Prop}
    {Post : Except Fault δ → Prop}
    (hstep : ∀ p a data stop data', t.nodeAt p = some a → 0 < (t.node a).suffixStart → I data →
      visit (t.node a) data = .ok (stop, data') → I data')
    (hfail : ∀ p a data e, t.nodeAt p = some a → 0 < (t.node a).suffixStart → I data →
      visit (t.node a) data = .error e → Post (.error e))
    (hend : ∀ data, I data → Post (.ok data)) (hout : Post (.error .diverges)) (locked : Bool)
    {data : δ} (h : I data) : Post (t.traverse locked visit data) := by
  -- every node on the stack is in the trie
  have hbody : ∀ st : TraverseState δ, (∀ a ∈ st.nodeStack, ∃ p, t.nodeAt p = some a) ∧ I st.data →
      Keeps (fun st => (∀ a ∈ st.nodeStack, ∃ p, t.nodeAt p = some a) ∧ I st.data) Post
        (traverseBody t visit st) := by
    rintro ⟨stack, d⟩ ⟨hstack, hI⟩
    unfold traverseBody
    cases stack with
    | nil => exact hend d hI
    | cons a stack =>
      obtain ⟨p, ha⟩ := hstack a List.mem_cons_self
      have hrest : ∀ b ∈ stack, ∃ p, t.nodeAt p = some b := fun b hb =>
        hstack b (List.mem_cons_of_mem _ hb)
      by_cases hl : 0 < (t.node a).suffixStart
      · simp only [if_pos hl, bind, Except.bind]
        rcases hv : visit (t.node a) d with e | ⟨stop, d'⟩
        · exact hfail p a d e ha hl hI hv
        · have hI' := hstep p a d stop d' ha hl hI hv
          cases stop with
          | false => exact ⟨hrest, hI'⟩
          | true => exact hend d' hI'
      · simp only [if_neg hl, bind, Except.bind]
        refine ⟨fun b hb => ?_, hI⟩
        rw [pushChildren_eq, List.mem_append, List.mem_filterMap] at hb
        rcases hb with ⟨c, -, hc⟩ | hb
        · exact ⟨p ++ [c], nodeAt_kid ha hc⟩
        · exact hrest b hb
  refine loop_keeps hbody hout _ _ ⟨fun a ha => ?_, h⟩
  rw [List.mem_singleton.mp ha]
  exact ⟨[], nodeAt_nil t⟩

/-- A traversal whose visits carry more data is the one without it. -/
theorem traverse_map {δ' : Type} {visit : TrieNode ρ → δ → Except Fault (Bool × δ)}
    {visit' : TrieNode ρ → δ' → Except Fault (Bool × δ')} {f : δ' → δ}
    (h : ∀ n d, visit n (f d) = (visit' n d).map (Prod.map id f)) (locked : Bool) (data : δ') :
    t.traverse locked visit (f data) = (t.traverse locked visit' data).map f := by
  unfold traverse
  let g : TraverseState δ' → TraverseState δ := fun st => ⟨st.nodeStack, f st.data⟩
  refine loop_map (f := g) (fun st => ?_) _ { nodeStack := [t.root], data := data }
  obtain ⟨stack, d⟩ := st
  unfold traverseBody
  cases stack with
  | nil => rfl
  | cons a stack =>
    by_cases hl : 0 < (t.node a).suffixStart
    · simp only [g, if_pos hl, bind, Except.bind, h]
      rcases visit' (t.node a) d with e | ⟨stop, d'⟩
      · rfl
      · cases stop <;> rfl
    · simp only [g, if_neg hl, bind, Except.bind]
      rfl

/-! ## A new trie -/

theorem find_new {ks : Nat} {h0 : 0 < ks} {h1 : ks ≤ 255} (k : Key) :
    (new ks h0 h1 : HandleTrie ρ).find k = none := by
  rw [new_wf.find_eq_none]
  rintro v ⟨p, a, ha, hl, -⟩
  obtain ⟨rfl, rfl⟩ := nodeAt_new ha
  exact new_wf.root_inner hl

/-- A new trie holds no keys. -/
theorem keys_new {ks : Nat} {h0 : 0 < ks} {h1 : ks ≤ 255} :
    (new ks h0 h1 : HandleTrie ρ).keys = [] := by
  refine List.eq_nil_iff_forall_not_mem.mpr fun k hk => ?_
  obtain ⟨v, hv⟩ := new_wf.mem_keys.mp hk
  rw [find_new] at hv
  exact absurd hv (by simp)

end AttentionBroker.HandleTrie
