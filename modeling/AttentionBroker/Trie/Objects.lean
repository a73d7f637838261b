import Mathlib.Data.Finset.Basic
import AttentionBroker.Trie.Traverse

/-!
# Tries of objects

The three tries of the broker hold objects of one class each: nodes, edges and importance
changes. Their keys are inserted with `insert(key, new X(..))`, where `merge` is a method
of `X`. `insertNew` is that call with the objects in a pool, and `insertNew_spec` says
which object it returns and which objects it changes.

`traverseIn_cases` is the rule for a loop over the objects of a trie.
-/

namespace AttentionBroker

open Infra

namespace HandleTrie

variable {α ρ : Type} {t t' : HandleTrie Nat} {h h' : Pool α} {key k : Key} {r : Nat}

/-! ## insert(key, new X(..)) -/

/-- A value class whose `merge` computes `merge this other` into `this`. -/
def objectValue (merge : α → α → α) : TrieValue Nat (Pool α) where
  merge v other h := h.modify v fun x => merge x (h.cell other)
  delete _ h := h

/-- `insert(key, new X(..))`, where `x` is the new object. Returns the address bound to the key. -/
def insertNew (merge : α → α → α) (t : HandleTrie Nat) (key : Key) (x : α) (h : Pool α) :
    Except Fault (Nat × HandleTrie Nat × Pool α) :=
  t.insert (objectValue merge) key h.next (h.alloc x)

/-- What `insertNew` leaves, with the address `r` bound to the key. -/
structure InsertedNew (merge : α → α → α) (t : HandleTrie Nat) (key : Key) (x : α) (h : Pool α)
    (r : Nat) (t' : HandleTrie Nat) (h' : Pool α) : Prop where
  wf : t'.Wf
  keySize : t'.keySize = t.keySize
  find : t'.find = Function.update t.find key (some r)
  ref : r = (t.find key).getD h.next
  cell : h'.cell r = ((t.find key).map fun e => merge (h.cell e) x).getD x
  next : h'.next = h.next + 1
  frame : ∀ a, a < h.next → a ≠ r → h'.cell a = h.cell a

/--
**`insert(key, new X(..))` changes one object.**

It is the object of the key, which merges the new one, or the new object itself.
-/
theorem insertNew_spec (merge : α → α → α) (wf : t.Wf) (hkey : ValidKey t.keySize key) (x : α)
    (hlt : ∀ e, t.find key = some e → e < h.next) :
    ∃ r t' h', insertNew merge t key x h = .ok (r, t', h') ∧
      InsertedNew merge t key x h r t' h' := by
  obtain ⟨t', hwf, hsize, hins, hfind⟩ :=
    insert_eq (objectValue merge) wf hkey h.next (h.alloc x)
  have hupd : ∀ r, (t.find key).getD h.next = r →
      t'.find = Function.update t.find key (some r) := fun r hr => by
    funext k
    rw [hfind k, hr, Function.update_apply]
  cases hk : t.find key with
  | none =>
    rw [hk] at hins
    refine ⟨h.next, t', h.alloc x, hins, hwf, hsize, hupd _ (by rw [hk]; rfl), by rw [hk]; rfl,
      ?_, rfl, fun a ha _ => Pool.alloc_cell_lt h x ha⟩
    rw [hk]
    exact Pool.alloc_cell_next h x
  | some e =>
    have he := hlt e hk
    rw [hk] at hins
    refine ⟨e, t', _, hins, hwf, hsize, hupd _ (by rw [hk]; rfl), by rw [hk]; rfl, ?_, rfl, ?_⟩
    · rw [hk]
      simp [objectValue, Pool.alloc_cell_lt h x he]
    · intro a ha hne
      simp only [objectValue]
      rw [Pool.modify_cell_ne _ _ hne, Pool.alloc_cell_lt h x ha]

/-- The new object goes to an address nothing is bound to, or the key was bound already. -/
theorem InsertedNew.ref_cases {merge : α → α → α} {x : α}
    (hi : InsertedNew merge t key x h r t' h') :
    t.find key = some r ∨ t.find key = none ∧ r = h.next := by
  have hr := hi.ref
  cases hk : t.find key with
  | none => rw [hk] at hr; exact .inr ⟨rfl, hr⟩
  | some e => rw [hk] at hr; exact .inl (congrArg some hr.symm)

theorem InsertedNew.find_self {merge : α → α → α} {x : α}
    (hi : InsertedNew merge t key x h r t' h') : t'.find key = some r := by
  rw [hi.find, Function.update_self]

theorem InsertedNew.find_ne {merge : α → α → α} {x : α}
    (hi : InsertedNew merge t key x h r t' h') (hk : k ≠ key) : t'.find k = t.find k := by
  rw [hi.find, Function.update_of_ne hk]

/-! ## Keys of any bytes -/

/-- The size check comes first. -/
theorem insertNew_raises {merge : α → α → α} {x : α} (hkey : key.length ≠ t.keySize) :
    ∃ what, insertNew merge t key x h = .error (.runtimeError what) := by
  refine ⟨"Invalid key size: " ++ toString key.length ++ " != " ++ toString t.keySize, ?_⟩
  unfold insertNew insert checkSize
  rw [if_pos hkey]
  rfl

/-- How `insert(key, new X(..))` ends for a key of the right length. -/
theorem insertNew_ends (merge : α → α → α) (l : t.Loose t.keySize True) (hks : t.keySize ≠ 255)
    (hkey : key.length = t.keySize) (x : α) (h : Pool α) :
    (∃ r t' h', insertNew merge t key x h = .ok (r, t', h') ∧ t'.keySize = t.keySize ∧
      t'.Loose t'.keySize True ∧
      Returns (objectValue merge) t key h.next (h.alloc x) (r, t', h')) ∨
    insertNew merge t key x h = .error .outOfBounds := by
  have hends := insert_ends (objectValue merge) l (.inl trivial) hkey h.next (h.alloc x)
  unfold insertNew
  rcases hins : t.insert (objectValue merge) key h.next (h.alloc x) with e | ⟨r, t', h'⟩
  · rw [hins] at hends
    obtain rfl := hends.1
    exact Or.inr rfl
  · rw [hins] at hends
    obtain ⟨hsize, -, hret⟩ := hends
    have hsize : t'.keySize = t.keySize := hsize
    exact Or.inl ⟨r, t', h', rfl, hsize, by rw [hsize]; exact (hret trivial).loose l hks,
      hret trivial⟩

/-- The objects after a call: one more, and what holds of all of them and of the new one stays. -/
theorem Returns.cells {merge : α → α → α} {x : α} {P : α → Prop}
    (hr : Returns (objectValue merge) t key h.next (h.alloc x) (r, t', h'))
    (hx : P x) (hmerge : ∀ y, P y → P (merge y x)) (hP : ∀ a, P (h.cell a)) :
    h'.next = h.next + 1 ∧ ∀ a, P (h'.cell a) := by
  have halloc : ∀ a, P ((h.alloc x).cell a) := fun a => by
    by_cases ha : a = h.next
    · rw [ha, Pool.alloc_cell_next]
      exact hx
    · rw [Pool.alloc_cell_ne h x ha]
      exact hP a
  cases hr with
  | merged =>
    refine ⟨rfl, fun a => ?_⟩
    by_cases ha : a = r
    · subst ha
      simp only [objectValue, Pool.modify_cell_self, Pool.alloc_cell_next]
      exact hmerge _ (halloc a)
    · simp only [objectValue]
      rw [Pool.modify_cell_ne _ _ ha]
      exact halloc a
  | added => exact ⟨rfl, halloc⟩
  | wrapped => exact ⟨rfl, halloc⟩

/-! ## The objects of one trie -/

/-- The addresses in the trie are allocated and no object is bound to two keys. -/
structure Stores (t : HandleTrie Nat) (h : Pool α) : Prop where
  lt : ∀ k a, t.find k = some a → a < h.next
  inj : ∀ k k' a, t.find k = some a → t.find k' = some a → k = k'

/-- The object bound to a key. -/
def object (t : HandleTrie Nat) (h : Pool α) (k : Key) : Option α := (t.find k).map h.cell

theorem object_eq_none : t.object h k = none ↔ t.find k = none := by
  simp [object]

theorem Stores.named (hs : t.Stores h) : Named t.find h.next := ⟨hs.lt, hs.inj⟩

theorem InsertedNew.stores {merge : α → α → α} {x : α} (hs : t.Stores h)
    (hi : InsertedNew merge t key x h r t' h') : t'.Stores h' := by
  have hbind : ∀ k, t'.find k = if k = key then some r else t.find k := fun k => by
    rw [hi.find, Function.update_apply]
  obtain ⟨hlt, hinj⟩ := hs.named.bind hi.ref_cases hbind
  exact ⟨by rwa [hi.next], hinj⟩

/-- The objects after `insertNew`: only the one of the key is new or changed. -/
theorem InsertedNew.object {merge : α → α → α} {x : α} (hs : t.Stores h)
    (hi : InsertedNew merge t key x h r t' h') (k : Key) :
    t'.object h' k
      = if k = key then some (((t.object h key).map fun y => merge y x).getD x)
        else t.object h k := by
  by_cases hk : k = key
  · subst hk
    rw [if_pos rfl, HandleTrie.object, HandleTrie.object, hi.find_self, Option.map_some, hi.cell,
      Option.map_map]
    rfl
  · rw [if_neg hk, HandleTrie.object, HandleTrie.object, hi.find_ne hk]
    cases ha : t.find k with
    | none => rfl
    | some a =>
      exact congrArg some (hi.frame a (hs.lt k a ha) (hs.named.ne hi.ref_cases ha hk))

/-! ## Loops over the stored keys -/

/-- The stored keys as a set. -/
def keySet (t : HandleTrie ρ) : Finset Key := t.keys.toFinset

theorem Wf.mem_keySet {t : HandleTrie ρ} (wf : t.Wf) {k : Key} :
    k ∈ t.keySet ↔ ∃ v, t.find k = some v := by
  rw [keySet, List.mem_toFinset, wf.mem_keys]

theorem Wf.not_mem_keySet {t : HandleTrie ρ} (wf : t.Wf) {k : Key} :
    k ∉ t.keySet ↔ t.find k = none := by
  rw [wf.mem_keySet, Option.eq_none_iff_forall_ne_some]
  exact not_exists

end HandleTrie

variable {δ ρ : Type}

theorem visitAll_cases (visit : TrieNode ρ → δ → Except Fault (Bool × δ)) (Bad : Key → Prop)
    (e : Fault) (I : Finset Key → δ → Prop) : ∀ (ns : List (TrieNode ρ)) (seen : Finset Key)
    (data : δ), (∀ n ∈ ns, n.suffix ∉ seen) → (ns.map TrieNode.suffix).Nodup →
    (∀ n ∈ ns, ∀ seen data, n.suffix ∉ seen → ¬ Bad n.suffix → I seen data →
      ∃ data', visit n data = .ok (false, data') ∧ I (insert n.suffix seen) data') →
    (∀ n ∈ ns, ∀ seen data, n.suffix ∉ seen → Bad n.suffix → I seen data →
      visit n data = .error e) →
    I seen data →
    (∃ data', HandleTrie.visitAll visit ns data = .ok data' ∧
      I (seen ∪ (ns.map TrieNode.suffix).toFinset) data' ∧ ∀ n ∈ ns, ¬ Bad n.suffix) ∨
    (HandleTrie.visitAll visit ns data = .error e ∧ ∃ n ∈ ns, Bad n.suffix) := by
  intro ns
  induction ns with
  | nil => intro seen data _ _ _ _ hI; exact .inl ⟨data, rfl, by simpa using hI, by simp⟩
  | cons n ns ih =>
    intro seen data hseen hnd hgood hbad hI
    rw [List.map_cons, List.nodup_cons] at hnd
    have hn := hseen n List.mem_cons_self
    -- the first bad key is where the traversal ends
    by_cases hb : Bad n.suffix
    · refine .inr ⟨?_, n, List.mem_cons_self, hb⟩
      rw [HandleTrie.visitAll, hbad n List.mem_cons_self seen data hn hb hI]
      rfl
    · obtain ⟨data', hv, hI'⟩ := hgood n List.mem_cons_self seen data hn hb hI
      have hall :
          HandleTrie.visitAll visit (n :: ns) data = HandleTrie.visitAll visit ns data' := by
        rw [HandleTrie.visitAll, hv]
        rfl
      have hseen' : ∀ m ∈ ns, m.suffix ∉ insert n.suffix seen := by
        intro m hm hmem
        rcases Finset.mem_insert.mp hmem with he | he
        · exact hnd.1 (he ▸ List.mem_map_of_mem hm)
        · exact hseen m (List.mem_cons_of_mem _ hm) he
      rw [hall]
      rcases ih (insert n.suffix seen) data' hseen' hnd.2
        (fun m hm => hgood m (List.mem_cons_of_mem _ hm))
        (fun m hm => hbad m (List.mem_cons_of_mem _ hm)) hI' with
          ⟨d, hd, hId, hns⟩ | ⟨hd, m, hm, hbm⟩
      · refine .inl ⟨d, hd, ?_, fun m hm => ?_⟩
        · rw [List.map_cons, List.toFinset_cons, Finset.union_insert, ← Finset.insert_union]
          exact hId
        · rcases List.mem_cons.mp hm with rfl | hm
          · exact hb
          · exact hns m hm
      · exact .inr ⟨hd, m, List.mem_cons_of_mem _ hm, hbm⟩

namespace HandleTrie

/-- An order in which the leaves of every trie can be visited. -/
structure Order (ρ : Type) where
  list : HandleTrie ρ → List (TrieNode ρ)
  perm : ∀ t, (list t).Perm t.leaves

/-- The order of `traverse`. -/
def keyOrder : Order ρ := ⟨leaves, fun _ => List.Perm.refl _⟩

/-- A traversal in this order. -/
def traverseIn (o : Order ρ) (t : HandleTrie ρ)
    (visit : TrieNode ρ → δ → Except Fault (Bool × δ)) (data : δ) : Except Fault δ :=
  visitAll visit (o.list t) data

theorem traverse_keyOrder {t : HandleTrie ρ} (wf : t.Wf) (locked : Bool)
    (visit : TrieNode ρ → δ → Except Fault (Bool × δ)) (data : δ) :
    t.traverse locked visit data = t.traverseIn keyOrder visit data :=
  traverse_spec wf locked visit data

end HandleTrie

/--
**The rule for a traversal in any order.**

`I` holds of the set of keys visited so far and of the data. Either no key is bad and every
stored key is visited, or a bad one is stored and its visit is how the traversal fails.
-/
theorem traverseIn_cases {t : HandleTrie ρ} (wf : t.Wf) (o : HandleTrie.Order ρ)
    (visit : TrieNode ρ → δ → Except Fault (Bool × δ)) (data : δ) (Bad : Key → Prop) (e : Fault)
    (I : Finset Key → δ → Prop) (h0 : I ∅ data)
    (hgood : ∀ n v seen data, n.value = some v → t.find n.suffix = some v → n.suffix ∉ seen →
      ¬ Bad n.suffix → I seen data →
      ∃ data', visit n data = .ok (false, data') ∧ I (insert n.suffix seen) data')
    (hbad : ∀ n v seen data, n.value = some v → t.find n.suffix = some v → n.suffix ∉ seen →
      Bad n.suffix → I seen data → visit n data = .error e) :
    (∃ data', t.traverseIn o visit data = .ok data' ∧ I t.keySet data' ∧
      ∀ k ∈ t.keySet, ¬ Bad k) ∨
    (t.traverseIn o visit data = .error e ∧ ∃ k ∈ t.keySet, Bad k) := by
  have hval : ∀ n ∈ o.list t, ∃ v, n.value = some v ∧ t.find n.suffix = some v := fun n hn => by
    obtain ⟨hv, v, hf⟩ := wf.leaf_value ((o.perm t).mem_iff.mp hn)
    exact ⟨v, hv.trans hf, hf⟩
  have hkeys : ((o.list t).map TrieNode.suffix).Perm t.keys := (o.perm t).map _
  have hset : ((o.list t).map TrieNode.suffix).toFinset = t.keySet :=
    List.toFinset_eq_of_perm _ _ hkeys
  have hmem : ∀ k, k ∈ t.keySet ↔ ∃ n ∈ o.list t, n.suffix = k := fun k => by
    rw [← hset, List.mem_toFinset, List.mem_map]
  unfold HandleTrie.traverseIn
  rcases visitAll_cases visit Bad e I (o.list t) ∅ data
      (by simp) (hkeys.nodup_iff.mpr wf.keys_nodup)
      (fun n hn seen data hs hb hI => by
        obtain ⟨v, hv, hf⟩ := hval n hn
        exact hgood n v seen data hv hf hs hb hI)
      (fun n hn seen data hs hb hI => by
        obtain ⟨v, hv, hf⟩ := hval n hn
        exact hbad n v seen data hv hf hs hb hI) h0 with ⟨d, hd, hI, hns⟩ | ⟨hd, n, hn, hb⟩
  · refine .inl ⟨d, hd, by rwa [Finset.empty_union, hset] at hI, fun k hk => ?_⟩
    obtain ⟨n, hn, rfl⟩ := (hmem k).mp hk
    exact hns n hn
  · exact .inr ⟨hd, n.suffix, (hmem _).mpr ⟨n, hn, rfl⟩, hb⟩

/-- The rule for a traversal in any order whose visits all succeed. -/
theorem traverseIn_induct {t : HandleTrie ρ} (wf : t.Wf) (o : HandleTrie.Order ρ)
    (visit : TrieNode ρ → δ → Except Fault (Bool × δ)) (data : δ) (I : Finset Key → δ → Prop)
    (h0 : I ∅ data)
    (hstep : ∀ n v seen data, n.value = some v → t.find n.suffix = some v → n.suffix ∉ seen →
      I seen data → ∃ data', visit n data = .ok (false, data') ∧ I (insert n.suffix seen) data') :
    ∃ data', t.traverseIn o visit data = .ok data' ∧ I t.keySet data' := by
  rcases traverseIn_cases wf o visit data (fun _ => False) .diverges I h0
      (fun n v seen data hv hf hs _ hI => hstep n v seen data hv hf hs hI)
      (fun n v seen data _ _ _ hb _ => hb.elim) with ⟨d, hd, hI, -⟩ | ⟨-, k, -, hb⟩
  · exact ⟨d, hd, hI⟩
  · exact hb.elim

/-- The rule for a traversal whose visits all succeed. -/
theorem traverse_induct {t : HandleTrie ρ} (wf : t.Wf) (locked : Bool)
    (visit : TrieNode ρ → δ → Except Fault (Bool × δ)) (data : δ) (I : Finset Key → δ → Prop)
    (h0 : I ∅ data)
    (hstep : ∀ n v seen data, n.value = some v → t.find n.suffix = some v → n.suffix ∉ seen →
      I seen data → ∃ data', visit n data = .ok (false, data') ∧ I (insert n.suffix seen) data') :
    ∃ data', t.traverse locked visit data = .ok data' ∧ I t.keySet data' := by
  rw [HandleTrie.traverse_keyOrder wf]
  exact traverseIn_induct wf _ visit data I h0 hstep

end AttentionBroker
