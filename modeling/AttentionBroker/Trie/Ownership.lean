import AttentionBroker.Trie.Progress

/-!
# Who owns what in a trie

A trie owns the nodes that its insertions allocate and the value objects that they are given. An
object that is merged into another one is deleted by the insertion, the rest by the destructor of
the trie. `threads_delete_once` says that, whatever the threads do, each is deleted exactly once.

`Full` is why no node is lost: all that was ever allocated can be reached from the root.
-/

namespace AttentionBroker

open Infra

/-- What a `delete` frees. -/
inductive Deletion (ρ : Type) where
  | node (a : Nat)
  | value (v : ρ)
deriving DecidableEq

/-- The nodes that are freed. -/
def Deletion.nodes {ρ : Type} (ds : List (Deletion ρ)) : List Nat :=
  ds.filterMap fun
    | .node a => some a
    | .value _ => none

/-- The value objects that are freed. -/
def Deletion.values {ρ : Type} (ds : List (Deletion ρ)) : List ρ :=
  ds.filterMap fun
    | .node _ => none
    | .value v => some v

namespace Deletion

variable {ρ : Type}

@[simp] theorem nodes_append (ds es : List (Deletion ρ)) :
    nodes (ds ++ es) = nodes ds ++ nodes es :=
  List.filterMap_append

@[simp] theorem values_append (ds es : List (Deletion ρ)) :
    values (ds ++ es) = values ds ++ values es :=
  List.filterMap_append

@[simp] theorem nodes_map_value (vs : List ρ) : nodes (vs.map .value) = [] := by
  simp [nodes, List.filterMap_map]

@[simp] theorem values_map_value (vs : List ρ) : values (vs.map .value) = vs := by
  simp [values, List.filterMap_map]

@[simp] theorem nodes_node (a : Nat) : nodes [(.node a : Deletion ρ)] = [a] := rfl

@[simp] theorem values_node (a : Nat) : values [(.node a : Deletion ρ)] = [] := rfl

end Deletion

namespace HandleTrie

variable {ρ σ δ : Type} {ops : TrieValue ρ σ} {t t' : HandleTrie ρ} {key : Key} {value : ρ}
  {a c p : Nat} {kc : UInt8}

/-! ## The destructor -/

/--
`delete` of a node: the destructor `TrieNode::~TrieNode`, with its own memory last.

`delete` of a child that is NULL does nothing.
-/
def deleteNode (t : HandleTrie ρ) : Nat → Nat → Except Fault (List (Deletion ρ))
  | 0, _ => .error .diverges
  | n + 1, a => do
    let below ← ((List.finRange 16).filterMap (t.node a).children).mapM (deleteNode t n)
    .ok (below.flatten ++ (t.node a).value.toList.map .value ++ [.node a])

/-- `HandleTrie::~HandleTrie`. No path is longer than a key, which bounds the recursion. -/
def destroy (t : HandleTrie ρ) : Except Fault (List (Deletion ρ)) :=
  t.deleteNode (t.keySize + 1) t.root

/-- The value objects of some nodes. -/
def valuesIn (t : HandleTrie ρ) (l : List Nat) : List ρ := l.filterMap fun a => (t.node a).value

/-- A deletion of these nodes and of their values, in some order. -/
def Deletes (t : HandleTrie ρ) (l : List Nat) (ds : List (Deletion ρ)) : Prop :=
  (Deletion.nodes ds).Perm l ∧ (Deletion.values ds).Perm (t.valuesIn l)

theorem deletes_flatten {below : Nat → List Nat} {f : Nat → Except Fault (List (Deletion ρ))} :
    ∀ {l : List Nat}, (∀ b ∈ l, ∃ ds, f b = .ok ds ∧ t.Deletes (below b) ds) →
      ∃ dss, l.mapM f = .ok dss ∧ t.Deletes (l.flatMap below) dss.flatten := by
  intro l
  induction l with
  | nil => exact fun _ => ⟨[], rfl, List.Perm.nil, List.Perm.nil⟩
  | cons b l ih =>
    intro h
    obtain ⟨ds, hds, hnodes, hvalues⟩ := h b List.mem_cons_self
    obtain ⟨dss, hdss, hnodes', hvalues'⟩ := ih fun b' hb' => h b' (List.mem_cons_of_mem b hb')
    refine ⟨ds :: dss, ?_, ?_, ?_⟩
    · rw [List.mapM_cons, hds, hdss]
      rfl
    · rw [List.flatten_cons, Deletion.nodes_append, List.flatMap_cons]
      exact hnodes.append hnodes'
    · rw [List.flatten_cons, Deletion.values_append, List.flatMap_cons, valuesIn,
        List.filterMap_append]
      exact hvalues.append hvalues'

/-- A node is freed after its children and its value. -/
theorem deletes_node (below : Nat → List Nat) (a n : Nat)
    (h : ∀ b ∈ t.childList a, ∃ ds, t.deleteNode n b = .ok ds ∧ t.Deletes (below b) ds) :
    ∃ ds, t.deleteNode (n + 1) a = .ok ds ∧
      t.Deletes (a :: (t.childList a).flatMap below) ds := by
  obtain ⟨dss, hdss, hnodes, hvalues⟩ := deletes_flatten h
  refine ⟨dss.flatten ++ (t.node a).value.toList.map .value ++ [.node a], ?_, ?_, ?_⟩
  · rw [deleteNode]
    show (t.childList a).mapM (t.deleteNode n) >>= _ = _
    rw [hdss]
    rfl
  · simpa using (hnodes.append_right [a]).trans (List.perm_append_singleton a _)
  · have hself : t.valuesIn (a :: (t.childList a).flatMap below)
        = (t.node a).value.toList ++ t.valuesIn ((t.childList a).flatMap below) := by
      unfold valuesIn
      cases hv : (t.node a).value <;> simp [hv]
    rw [hself]
    simpa using (hvalues.append_right _).trans List.perm_append_comm

theorem Wf.deleteNode_leaf (wf : t.Wf) {q : List Slot} (ha : t.nodeAt q = some a)
    (hl : 0 < (t.node a).suffixStart) (n d : Nat) :
    ∃ ds, t.deleteNode (n + 1) a = .ok ds ∧ t.Deletes (t.preorder d a) ds := by
  have hbare : t.childList a = [] := by
    unfold childList
    rw [List.filterMap_eq_nil_iff]
    exact fun c _ => wf.laid.bare q a ha hl c
  have h : ∃ ds, t.deleteNode (n + 1) a = .ok ds ∧
      t.Deletes (a :: (t.childList a).flatMap fun _ => []) ds :=
    deletes_node _ a n (by rw [hbare]; exact fun b hb => absurd hb List.not_mem_nil)
  rwa [hbare, List.flatMap_nil, ← preorder_leaf hl d] at h

/-- **The destructor of a node frees what is below it, each once.** -/
theorem Wf.deleteNode_deletes (wf : t.Wf) : ∀ (d : Nat) {q : List Slot} {a n : Nat},
    t.nodeAt q = some a → q.length + d = t.keySize → d < n →
      ∃ ds, t.deleteNode n a = .ok ds ∧ t.Deletes (t.preorder d a) ds := by
  intro d
  induction d with
  | zero =>
    intro q a n ha hd hn
    obtain ⟨n, rfl⟩ := Nat.exists_eq_succ_of_ne_zero (Nat.ne_of_gt hn)
    have hl : 0 < (t.node a).suffixStart := wf.shallow 0 ha hd
    exact wf.deleteNode_leaf ha hl n 0
  | succ d ih =>
    intro q a n ha hd hn
    obtain ⟨n, rfl⟩ := Nat.exists_eq_succ_of_ne_zero (Nat.ne_of_gt (Nat.lt_of_le_of_lt
      (Nat.zero_le _) hn))
    by_cases hl : 0 < (t.node a).suffixStart
    · exact wf.deleteNode_leaf ha hl n (d + 1)
    · rw [preorder_inner hl]
      refine deletes_node _ a n fun b hb => ?_
      obtain ⟨c, hc⟩ := mem_childList.mp hb
      exact ih (nodeAt_kid ha hc) (by rw [List.length_append, List.length_singleton]; omega)
        (Nat.lt_of_succ_lt_succ hn)

/-- Every node that was allocated can be reached. -/
def Full (t : HandleTrie ρ) : Prop := ∀ a < t.heap.next, ∃ q, t.nodeAt q = some a

/-- **The destructor frees each node and each value object once**, if all nodes can be reached. -/
theorem Wf.destroy_deletes (wf : t.Wf) (hfull : t.Full) :
    ∃ ds, t.destroy = .ok ds ∧ (Deletion.nodes ds).Perm (List.range t.heap.next) ∧
      (Deletion.values ds).Perm (t.keys.filterMap t.find) := by
  obtain ⟨ds, hds, hnodes, hvalues⟩ :=
    wf.deleteNode_deletes t.keySize (nodeAt_nil t) (Nat.zero_add _) (Nat.lt_succ_self _)
  refine ⟨ds, hds, hnodes.trans ?_, hvalues.trans ?_⟩
  · rw [List.perm_ext_iff_of_nodup (wf.nodup_preorder _ (nodeAt_nil t)) List.nodup_range]
    intro a
    rw [List.mem_range]
    constructor
    · intro ha
      obtain ⟨r, hr⟩ := nodeAt_of_mem_preorder t.keySize (nodeAt_nil t) ha
      exact wf.allocated _ a hr
    · intro ha
      obtain ⟨q, hq⟩ := hfull a ha
      exact wf.mem_preorder t.keySize q (nodeAt_nil t) (Nat.zero_add _) hq
  · -- only leaves have a value, and that of the key
    have hleaves : t.keys.filterMap t.find = t.leaves.filterMap TrieNode.value := by
      unfold keys
      rw [List.filterMap_map]
      exact List.filterMap_congr fun n hn => (wf.leaf_value hn).1.symm
    rw [hleaves]
    unfold leaves leavesIn valuesIn
    rw [List.filterMap_map, List.filterMap_filter]
    refine List.Perm.of_eq (List.filterMap_congr fun a ha => ?_)
    obtain ⟨r, hr⟩ := nodeAt_of_mem_preorder t.keySize (nodeAt_nil t) ha
    by_cases hl : 0 < (t.node a).suffixStart
    · simp [hl]
    · simp [hl, (wf.fits _ a hr).inner_value hl]

/-! ## No node is lost -/

/-- What was there stays, so only the new nodes are in question. -/
theorem Full.extend (h : t.Full) (e : Extends t t')
    (hnew : ∀ a, t.heap.next ≤ a → a < t'.heap.next → ∃ q, t'.nodeAt q = some a) : t'.Full := by
  intro a ha
  by_cases hold : a < t.heap.next
  · obtain ⟨q, hq⟩ := h a hold
    obtain ⟨r, hr⟩ := e.nodeAt hq
    exact ⟨_, hr⟩
  · exact hnew a (Nat.le_of_not_lt hold) ha

theorem kids_link_self (t : HandleTrie ρ) (a : Nat) (d : Slot) (b : Nat) :
    (t.link a d b).kids a d = some b := by
  simp [kids]

theorem kids_link_ne {b x : Nat} {d d' : Slot} (h : x = a → d' ≠ d) :
    (t.link a d b).kids x d' = t.kids x d' := by
  by_cases hx : x = a
  · subst hx
    simp [kids, h rfl]
  · rw [kids, node_link_ne hx, kids]

/-- An internal node that has got a child leads to it. -/
theorem Extends.nodeAt_kid (e : Extends t t') {q : List Slot} {d : Slot} {b : Nat}
    (ha : t.nodeAt q = some a) (hin : ¬ 0 < (t.node a).suffixStart)
    (hkid : t'.kids a d = some b) : t'.nodeAt (q ++ [d]) = some b :=
  HandleTrie.nodeAt_kid (e.inner q a ha hin).1 hkid

/-- The parent of a leaf, at the place of an insertion. -/
theorem Placed.parent_inner {s : SharedTrie ρ σ} (h : Placed s.trie key c p kc) (wf : s.trie.Wf)
    (hkey : ValidKey s.trie.keySize key) (hl : 0 < (s.trie.node c).suffixStart) :
    s.trie.nodeAt ((code key).take (kc.toNat - 1)) = some p ∧
      ¬ 0 < (s.trie.node p).suffixStart := by
  obtain ⟨-, hpos⟩ := h.start_eq wf hkey hl
  have hp := h.parent hpos
  refine ⟨hp, fun hlp => ?_⟩
  have hle : kc.toNat ≤ key.length := hkey.1.symm ▸ h.le
  have hpath : (code key).take (kc.toNat - 1) <+: (code key).take kc.toNat :=
    List.take_prefix_take_left (by omega)
  have heq := congrArg List.length (wf.laid.below_leaf hp hlp h.cursor hpath)
  rw [length_code_take hle, length_code_take (by omega)] at heq
  omega

/-- Two leaves that are split go to different slots. -/
theorem Placed.slots_ne {s : SharedTrie ρ σ} {k d x : UInt8} (h : Placed s.trie key c p kc)
    (wf : s.trie.Wf) (hkey : ValidKey s.trie.keySize key) (hl : 0 < (s.trie.node c).suffixStart)
    (hk : charAt key kc.toNat = .ok k) (hd : charAt (s.trie.node c).suffix kc.toNat = .ok d)
    (hne : k ≠ d)
    (hx : charAt (s.trie.node c).suffix (s.trie.node c).suffixStart.toNat = .ok x) :
    TLB k ≠ TLB x := by
  obtain ⟨hstart, -⟩ := h.start_eq wf hkey hl
  rw [hstart, hd] at hx
  obtain rfl := Except.ok.inj hx
  have hvalid := (wf.fits _ c h.cursor).key hl
  have hlt : kc.toNat < key.length := h.lt_of_leaf wf hkey hl
  have hlt' : kc.toNat < (s.trie.node c).suffix.length := by
    rw [hvalid.1, ← hkey.1]
    exact hlt
  rw [charAt_lt hlt] at hk
  rw [charAt_lt hlt'] at hd
  refine fun hslot => hne (TLB_inj ?_ ?_ hslot)
  · exact Except.ok.inj hk ▸ hkey.2 _ (List.getElem_mem hlt)
  · exact Except.ok.inj hd ▸ hvalid.2 _ (List.getElem_mem hlt')

/-- **An iteration links the nodes that it makes.** -/
theorem Placed.full {s s' : SharedTrie ρ σ} {stage : InsertStage ρ} (h : Placed s.trie key c p kc)
    (wf : s.trie.Wf) (hkey : ValidKey s.trie.keySize key) (e : Extends s.trie s'.trie)
    (hit : Iterated key value c p kc s s' stage) (hfull : s.trie.Full) : s'.trie.Full := by
  refine hfull.extend e fun a hle hlt => ?_
  cases hit with
  | down =>
    refine absurd hlt (Nat.not_lt.mpr ?_)
    split <;> exact hle
  | attached hk hc hin =>
    rw [unlockBoth_trie] at hlt e ⊢
    obtain rfl : a = s.trie.heap.next := Nat.le_antisymm (Nat.le_of_lt_succ hlt) hle
    exact ⟨_, e.nodeAt_kid h.cursor hin (kids_link_self ..)⟩
  | pushed hk hc hl hpred hsame hfree =>
    obtain ⟨hp, hinp⟩ := h.parent_inner wf hkey hl
    obtain rfl : a = s.trie.heap.next := Nat.le_antisymm (Nat.le_of_lt_succ hlt) hle
    exact ⟨_, e.nodeAt_kid hp hinp (kids_link_self ..)⟩
  | split hk hc hl hpred hd hne hx =>
    rw [unlockBoth_trie] at hlt e ⊢
    obtain ⟨hp, hinp⟩ := h.parent_inner wf hkey hl
    have hslots := h.slots_ne wf hkey hl hk hd hne hx
    have hsplit := e.nodeAt_kid hp hinp (kids_link_self ..)
    rcases Nat.lt_or_ge a (s.trie.heap.next + 1) with hlt' | hge
    · -- the new leaf is in its slot of the node made for the split
      obtain rfl : a = s.trie.heap.next := Nat.le_antisymm (Nat.le_of_lt_succ hlt') hle
      have hsp : s.trie.heap.next + 1 ≠ p := by
        have hlt := wf.allocated _ p hp
        omega
      refine ⟨_, HandleTrie.nodeAt_kid hsplit (Eq.trans (kids_link_ne fun heq => absurd heq hsp)
        (Eq.trans (kids_link_ne fun _ => hslots) (kids_link_self ..)))⟩
    · obtain rfl : a = s.trie.heap.next + 1 := Nat.le_antisymm (Nat.le_of_lt_succ hlt) hge
      exact ⟨_, hsplit⟩

/-- Only the iterations of an insertion change the trie. -/
theorem trie_of_arrive {s s' : SharedTrie ρ σ} {stage : InsertStage ρ}
    (h : arrive ops key value c p kc s = .ok (s', stage)) : s'.trie = s.trie := by
  obtain ⟨s₁, hlock, h⟩ := bind_eq_ok.mp h
  obtain ⟨-, rfl⟩ := SharedTrie.lock_eq_ok.mp hlock
  by_cases hl : 0 < (s.trie.node c).suffixStart
  · simp only [if_pos hl] at h
    obtain ⟨same, -, h⟩ := bind_eq_ok.mp h
    cases same with
    | false =>
      obtain ⟨rfl, -⟩ := Prod.mk.inj (Except.ok.inj h)
      rfl
    | true =>
      simp only [if_true] at h
      cases hv : (s.trie.node c).value with
      | none =>
        simp only [hv] at h
        cases h
      | some v =>
        simp only [hv] at h
        obtain ⟨rfl, -⟩ := Prod.mk.inj (Except.ok.inj h)
        split <;> rfl
  · simp only [if_neg hl] at h
    obtain ⟨rfl, -⟩ := Prod.mk.inj (Except.ok.inj h)
    rfl

theorem trie_of_lookupVisit {s s' : SharedTrie ρ σ} {st : LookupState}
    {r : LookupState ⊕ Option ρ} (h : lookupVisit key st s = .ok (s', r)) : s'.trie = s.trie := by
  unfold lookupVisit at h
  cases hc : st.treeCursor with
  | none =>
    simp only [hc] at h
    obtain ⟨r', -, h⟩ := bind_eq_ok.mp h
    obtain ⟨rfl, -⟩ := Prod.mk.inj (Except.ok.inj h)
    rfl
  | some a =>
    simp only [hc] at h
    obtain ⟨s₁, hlock, h⟩ := bind_eq_ok.mp h
    obtain ⟨-, rfl⟩ := SharedTrie.lock_eq_ok.mp hlock
    obtain ⟨r', -, h⟩ := bind_eq_ok.mp h
    obtain ⟨rfl, -⟩ := Prod.mk.inj (Except.ok.inj h)
    rfl

/-- **Only an iteration of an insertion changes the trie.** -/
theorem advance_iterated {s s' : SharedTrie ρ σ} {th th' : TrieThread ρ δ}
    (hadv : th.advance ops s = .ok (s', th')) : s'.trie = s.trie ∨
      ∃ key value c p kc stage, th = .insert key value (.holding c p kc) ∧
        Iterated key value c p kc s s' stage := by
  cases th with
  | insert key value stage =>
    obtain ⟨⟨s₁, stage'⟩, hins, hadv⟩ := bind_eq_ok.mp hadv
    obtain ⟨rfl, -⟩ := Prod.mk.inj (Except.ok.inj hadv)
    cases stage with
    | entered =>
      obtain ⟨-, -, hins⟩ := bind_eq_ok.mp hins
      obtain ⟨s₂, hlock, hins⟩ := bind_eq_ok.mp hins
      obtain ⟨-, rfl⟩ := SharedTrie.lock_eq_ok.mp hlock
      obtain ⟨rfl, -⟩ := Prod.mk.inj (Except.ok.inj hins)
      exact .inl rfl
    | holding c p kc => exact .inr ⟨key, value, c, p, kc, stage', rfl, iterate_eq_ok.mp hins⟩
    | descending c p kc => exact .inl (trie_of_arrive hins)
    | returned v => cases hins
  | lookup key stage =>
    cases stage with
    | entered =>
      obtain ⟨-, -, hadv⟩ := bind_eq_ok.mp hadv
      obtain ⟨rfl, -⟩ := Prod.mk.inj (Except.ok.inj hadv)
      exact .inl rfl
    | visiting st =>
      obtain ⟨⟨s₁, r⟩, hvisit, hadv⟩ := bind_eq_ok.mp hadv
      obtain ⟨rfl, -⟩ := Prod.mk.inj (Except.ok.inj hadv)
      exact .inl (trie_of_lookupVisit hvisit)
    | returned o => cases hadv
  | traverse keep visit data stage =>
    cases stage with
    | entered =>
      obtain ⟨rfl, -⟩ := Prod.mk.inj (Except.ok.inj hadv)
      exact .inl rfl
    | visiting st =>
      obtain ⟨⟨s₁, r⟩, hvisit, hadv⟩ := bind_eq_ok.mp hadv
      obtain ⟨rfl, -⟩ := Prod.mk.inj (Except.ok.inj hadv)
      exact .inl (traverseBody_of_visit hvisit).1
    | returned data => cases hadv

/-- **No step of a thread loses a node.** -/
theorem Sound.step_full {s s' : TrieThreads ρ σ δ} {i : Nat} (h : Sound s)
    (hfull : s.shared.trie.Full) (hstep : s.step (TrieThread.advance ops) i = some s') :
    s'.shared.trie.Full := by
  obtain ⟨-, rfl⟩ | ⟨th, sh, th', hth, hadv, rfl⟩ := Parties.step_cases hstep
  · exact hfull
  have hmem := Parties.mem_of_get hth
  have hext := (h.advances hmem hadv).effect.toExtends
  show sh.trie.Full
  rcases advance_iterated hadv with hsame | ⟨key, value, c, p, kc, stage, rfl, hit⟩
  · exact hsame.symm ▸ hfull
  · obtain ⟨hkey, hplaced⟩ := h.place _ hmem
    exact Placed.full hplaced h.wf hkey hext hit hfull

end HandleTrie

/-! ## No value object is lost -/

/-- Value objects with a record of those that are deleted. -/
def recordDeletes {ρ σ : Type} (ops : TrieValue ρ σ) : TrieValue ρ (σ × List ρ) where
  merge v w s := (ops.merge v w s.1, s.2)
  delete v s := (ops.delete v s.1, s.2 ++ [v])

/-- The value object that a call is given. -/
def Call.value {ρ : Type} : Call ρ → Option ρ
  | .insert _ value => some value
  | .lookup _ => none

/-- The value objects that a map was given have been deleted, or they are bound. -/
def MapState.Keeps {ρ σ : Type} (keySize : Nat) (m : MapState ρ (σ × List ρ)) (given : List ρ) :
    Prop :=
  ∃ keys : List Key, keys.Nodup ∧ (∀ k, k ∈ keys ↔ ∃ v, m.map k = some v) ∧
    (∀ k ∈ keys, ValidKey keySize k) ∧ (m.store.2 ++ keys.filterMap m.map).Perm given

namespace MapState

variable {ρ σ : Type} {keySize : Nat} {m : MapState ρ (σ × List ρ)} {given : List ρ}

/-- **A call deletes the object that it is given, or binds it.** -/
theorem Keeps.call (h : m.Keeps keySize given) (ops : TrieValue ρ σ) {c : Call ρ}
    (hc : ValidKey keySize c.key) :
    (m.call (recordDeletes ops) c).2.Keeps keySize (given ++ c.value.toList) := by
  obtain ⟨keys, hnodup, hmem, hvalid, hperm⟩ := h
  cases c with
  | lookup key =>
    exact ⟨keys, hnodup, hmem, hvalid, by simpa [Call.value, MapState.call] using hperm⟩
  | insert key value =>
    cases hk : m.map key with
    | some v =>
      simp only [MapState.call, insert_of_some hk]
      refine ⟨keys, hnodup, hmem, hvalid, ?_⟩
      show (m.store.2 ++ [value] ++ keys.filterMap m.map).Perm (given ++ [value])
      rw [List.append_assoc]
      exact (List.perm_append_comm.append_left _).trans
        (List.append_assoc .. ▸ hperm.append_right [value])
    | none =>
      have hnew : key ∉ keys := fun hin => by
        obtain ⟨v, hv⟩ := (hmem key).mp hin
        rw [hk] at hv
        cases hv
      simp only [MapState.call, insert_of_none hk]
      refine ⟨key :: keys, List.nodup_cons.mpr ⟨hnew, hnodup⟩, fun k => ?_,
        List.forall_mem_cons.mpr ⟨hc, hvalid⟩, ?_⟩
      · by_cases hkk : k = key
        · simp [hkk]
        · simp [hkk, hmem]
      · have hold : keys.filterMap (Function.update m.map key (some value))
            = keys.filterMap m.map :=
          List.filterMap_congr fun k hin =>
            Function.update_of_ne (fun hkk : k = key => hnew (hkk ▸ hin)) ..
        show (m.store.2 ++ (key :: keys).filterMap (Function.update m.map key (some value))).Perm
          (given ++ [value])
        rw [List.filterMap_cons, Function.update_self, hold]
        refine List.perm_middle.trans ((hperm.cons value).trans ?_)
        exact (List.perm_append_singleton _ _).symm

theorem Keeps.run (ops : TrieValue ρ σ) : ∀ (cs : List (Call ρ)) (m : MapState ρ (σ × List ρ))
    (given : List ρ), m.Keeps keySize given → (∀ c ∈ cs, ValidKey keySize c.key) →
      (m.run (recordDeletes ops) cs).2.Keeps keySize (given ++ cs.filterMap Call.value)
  | [], m, given, h, _ => by simpa [MapState.run] using h
  | c :: cs, m, given, h, hcs => by
    have h₁ := Keeps.run ops cs _ _ (h.call ops (hcs c List.mem_cons_self))
      fun d hd => hcs d (List.mem_cons_of_mem c hd)
    have hsplit : (c :: cs).filterMap Call.value = c.value.toList ++ cs.filterMap Call.value := by
      cases hv : c.value <;> simp [hv]
    rw [hsplit, ← List.append_assoc]
    exact h₁

end MapState

namespace HandleTrie

variable {ρ σ δ : Type} {ops : TrieValue ρ σ} {keySize : Nat} {m : MapState ρ σ}
  {s : TrieThreads ρ σ δ} {log : List (Entry ρ)}

theorem result_of_returned {th : TrieThread ρ δ} {c : Call ρ} (h : th.Returned)
    (hcall : th.call = some c) : ∃ o, th.result = some o := by
  cases th with
  | insert key value stage =>
    obtain ⟨v, rfl⟩ := h
    exact ⟨_, rfl⟩
  | lookup key stage =>
    obtain ⟨o, rfl⟩ := h
    exact ⟨_, rfl⟩
  | traverse => cases hcall

theorem filterMap_range {α : Type} : ∀ l : List α,
    (List.range l.length).filterMap (fun i => l[i]?) = l
  | [] => rfl
  | a :: l => by
    rw [List.length_cons, List.range_succ_eq_map, List.filterMap_cons, List.filterMap_map]
    exact congrArg (a :: ·) (filterMap_range l)

/-- **When all calls have returned, the log has the call of each thread.** -/
theorem Explains.calls_perm (h : Explains ops keySize m s log)
    (hreturned : ∀ th ∈ s.locals, th.Returned) :
    (log.map fun e => e.2.1).Perm (s.locals.filterMap TrieThread.call) := by
  let callOf : Nat → Option (Call ρ) := fun i => s.locals[i]?.bind TrieThread.call
  have hlog : log.map (fun e => e.2.1) = (log.map Prod.fst).filterMap callOf := by
    rw [List.filterMap_map, ← List.filterMap_eq_map]
    refine List.filterMap_congr fun ⟨i, c, o⟩ he => ?_
    obtain ⟨th, hth, hcall, -⟩ := h.begun i c o he
    simp [callOf, hth, hcall]
  have hids : (log.map Prod.fst).Perm
      ((List.range s.locals.length).filter fun i => (callOf i).isSome) := by
    rw [List.perm_ext_iff_of_nodup h.once (List.nodup_range.filter _)]
    intro i
    rw [List.mem_map, List.mem_filter, List.mem_range]
    constructor
    · rintro ⟨⟨i, c, o⟩, he, rfl⟩
      obtain ⟨th, hth, hcall, -⟩ := h.begun i c o he
      exact ⟨(List.getElem?_eq_some_iff.mp hth).1, by simp [callOf, hth, hcall]⟩
    · rintro ⟨-, hsome⟩
      obtain ⟨c, hc⟩ := Option.isSome_iff_exists.mp hsome
      obtain ⟨th, hth, hcall⟩ := Option.bind_eq_some_iff.mp hc
      obtain ⟨o, ho⟩ := result_of_returned (hreturned th (List.mem_of_getElem? hth)) hcall
      exact ⟨_, h.returned i th c o hth hcall ho, rfl⟩
  have hall : ((List.range s.locals.length).filter fun i => (callOf i).isSome).filterMap callOf
      = s.locals.filterMap TrieThread.call := by
    conv_rhs => rw [← filterMap_range s.locals]
    rw [List.filterMap_filter, List.filterMap_filterMap]
    refine List.filterMap_congr fun i _ => ?_
    cases hc : callOf i with
    | none => exact hc.symm
    | some c => exact hc.symm
  rw [hlog]
  exact (hids.filterMap _).trans (List.Perm.of_eq hall)

/-- No thread changes its call. -/
theorem calls_of_run {s s' : TrieThreads ρ σ δ} {schedule : List Nat} (h : Sound s)
    (hrun : run (Parties.step (TrieThread.advance ops)) s schedule = some s') :
    s'.locals.map TrieThread.call = s.locals.map TrieThread.call := by
  refine (run_preserves (fun s' => Sound s' ∧ s'.locals.map TrieThread.call
    = s.locals.map TrieThread.call) (fun s₁ i s₂ hs hstep => ?_) hrun ⟨h, rfl⟩).2
  obtain ⟨hsound, ⟨-, rfl⟩ | ⟨th, th', hth, hlocals, ha⟩⟩ := hs.1.step hstep
  · exact hs
  · refine ⟨hsound, Eq.trans ?_ hs.2⟩
    rw [hlocals, List.map_set, ha.call]
    refine List.ext_getElem? fun j => ?_
    by_cases hij : i = j
    · subst hij
      obtain ⟨hi, -⟩ := List.getElem?_eq_some_iff.mp hth
      rw [List.getElem?_set_self (by rwa [List.length_map]), List.getElem?_map, hth]
      rfl
    · rw [List.getElem?_set_ne hij]

theorem valid_of_call {t : HandleTrie ρ} {th : TrieThread ρ δ} {c : Call ρ} (h : th.InPlace t)
    (hcall : th.call = some c) : ValidKey t.keySize c.key := by
  cases th with
  | insert key value stage =>
    obtain rfl := Option.some.inj hcall
    exact h.1
  | lookup key stage =>
    obtain rfl := Option.some.inj hcall
    cases stage with
    | entered | returned => exact h
    | visiting => exact h.1
  | traverse => cases hcall

/-- The value objects that threads give to their insertions. -/
def given (threads : List (TrieThread ρ δ)) : List ρ :=
  (threads.filterMap TrieThread.call).filterMap Call.value

/--
**Over the life of a trie every node and every value object is deleted exactly once.**

Any threads use a new trie. When they have all returned and the trie is destroyed, the destructor
has freed each node that was ever allocated, once. The value objects that the insertions deleted and
those that the destructor deletes are together those that the insertions were given.
-/
theorem threads_delete_once (ops : TrieValue ρ σ) {keySize : Nat} (h0 : 0 < keySize)
    (h1 : keySize ≤ 255) (store : σ) {threads : List (TrieThread ρ δ)}
    (hbegins : ∀ th ∈ threads, th.Begins keySize) (schedule : List Nat)
    {s : TrieThreads ρ (σ × List ρ) δ}
    (hrun : run (Parties.step (TrieThread.advance (recordDeletes ops)))
      (startThreads (new keySize h0 h1) (store, []) threads) schedule = some s)
    (hreturned : ∀ th ∈ s.locals, th.Returned) :
    ∃ ds, s.shared.trie.destroy = .ok ds ∧
      (Deletion.nodes ds).Perm (List.range s.shared.trie.heap.next) ∧
      (s.shared.store.2 ++ Deletion.values ds).Perm (given threads) := by
  have hstart : Sound (startThreads (new keySize h0 h1) (store, ([] : List ρ)) threads) :=
    Sound.start new_wf _ hbegins
  have hfullNew : (new keySize h0 h1 : HandleTrie ρ).Full := fun a ha =>
    ⟨[], congrArg some (Nat.lt_one_iff.mp ha).symm⟩
  obtain ⟨hsound, hfull⟩ := run_preserves
    (fun s : TrieThreads ρ (σ × List ρ) δ => Sound s ∧ s.shared.trie.Full)
    (fun s i s' hs hstep => ⟨(hs.1.step hstep).1, hs.1.step_full hs.2 hstep⟩) hrun
    ⟨hstart, hfullNew⟩
  obtain ⟨ds, hds, hnodes, hvalues⟩ := hsound.wf.destroy_deletes hfull
  refine ⟨ds, hds, hnodes, (hvalues.append_left _).trans ?_⟩
  -- the map that the log leads to
  obtain ⟨log, hlog, -⟩ := run_records
    (Logged (recordDeletes ops) keySize
      { map := (new keySize h0 h1 : HandleTrie ρ).find, store := (store, []) })
    (fun s log i s' h hstep => h.step hstep) schedule _ s [] hrun
    (Logged.start new_wf (store, []) hbegins)
  have hexplains := hlog.explains
  have hcalls : (log.map fun e => e.2.1).Perm (threads.filterMap TrieThread.call) := by
    have hsplit : ∀ l : List (TrieThread ρ δ),
        l.filterMap TrieThread.call = (l.map TrieThread.call).filterMap id := fun l => by
      rw [List.filterMap_map]
      rfl
    have hsame : s.locals.map TrieThread.call = threads.map TrieThread.call :=
      calls_of_run hstart hrun
    rw [hsplit threads, ← hsame, ← hsplit]
    exact hexplains.calls_perm hreturned
  have hkept : (MapState.mk (new keySize h0 h1 : HandleTrie ρ).find
      ((store, []) : σ × List ρ)).Keeps keySize [] :=
    ⟨[], List.nodup_nil, fun k => by simp [find_new], nofun, List.Perm.nil⟩
  obtain ⟨keys, hnodup, hmem, hvalid, hgiven⟩ := hkept.run ops (log.map fun e => e.2.1) _ _
    fun c hc => by
      obtain ⟨⟨i, c, o⟩, he, rfl⟩ := List.mem_map.mp hc
      obtain ⟨th, hth, hcall, -⟩ := hexplains.begun i c o he
      exact hexplains.trie.keySize ▸ valid_of_call (hsound.place th (Parties.mem_of_get hth)) hcall
  have hkeys : s.shared.trie.keys.Perm keys := by
    rw [List.perm_ext_iff_of_nodup hsound.wf.keys_nodup hnodup]
    intro k
    rw [hsound.wf.mem_keys, hmem]
    constructor
    · rintro ⟨v, hv⟩
      have hk := hexplains.trie.keySize ▸ hsound.wf.find_valid hv
      exact ⟨v, hexplains.trie.find k hk ▸ hv⟩
    · rintro ⟨v, hv⟩
      exact ⟨v, (hexplains.trie.find k (hvalid k ((hmem k).mpr ⟨v, hv⟩))).trans hv⟩
  have hfind : (s.shared.trie.keys.filterMap s.shared.trie.find).Perm
      (keys.filterMap (MapState.run (recordDeletes ops) _ (log.map fun e => e.2.1)).2.map) :=
    (hkeys.filterMap _).trans (List.Perm.of_eq (List.filterMap_congr fun k hk =>
      hexplains.trie.find k (hvalid k hk)))
  rw [hexplains.store]
  exact (hfind.append_left _).trans (hgiven.trans (hcalls.filterMap _))

/-- Inserts `"00"` twice and `"01"`. -/
def mergingThreads : List (TrieThread Nat Unit) :=
  [.insert [48, 48] 0 .entered, .insert [48, 48] 2 .entered, .insert [48, 49] 1 .entered]

/-- The second object is merged into the first one, and the leaf of the first is split. -/
theorem threads_delete_once_merge :
    ∃ s : TrieThreads Nat ((Nat → Nat) × List Nat) Unit,
      run (Parties.step (TrieThread.advance (recordDeletes counterValue)))
        (startThreads (new 2 (by decide) (by decide)) (fun _ => 1, []) mergingThreads)
          [0, 0, 1, 1, 1, 2, 2, 2, 2] = some s ∧
      s.shared.store.2 = [2] ∧
      ∃ ds, s.shared.trie.destroy = .ok ds ∧
        (Deletion.nodes ds).Perm (List.range s.shared.trie.heap.next) ∧
        (s.shared.store.2 ++ Deletion.values ds).Perm (given mergingThreads) := by
  obtain ⟨s, hrun, hdeleted, hresults⟩ : ∃ s : TrieThreads Nat ((Nat → Nat) × List Nat) Unit,
      run (Parties.step (TrieThread.advance (recordDeletes counterValue)))
        (startThreads (new 2 (by decide) (by decide)) (fun _ => 1, []) mergingThreads)
          [0, 0, 1, 1, 1, 2, 2, 2, 2] = some s ∧
      s.shared.store.2 = [2] ∧
      s.locals = [.insert [48, 48] 0 (.returned 0), .insert [48, 48] 2 (.returned 0),
        .insert [48, 49] 1 (.returned 1)] :=
    ⟨_, rfl, rfl, rfl⟩
  refine ⟨s, hrun, hdeleted,
    threads_delete_once counterValue (by decide) (by decide) _ ?_ _ hrun ?_⟩
  · simp [mergingThreads, TrieThread.Begins, ValidKey, IsHex]
  · rw [hresults]
    simp [TrieThread.Returned]

end HandleTrie

end AttentionBroker
