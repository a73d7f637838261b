import AttentionBroker.Trie.Canonical
import AttentionBroker.Trie.Ownership
import AttentionBroker.Trie.TraverseThreads

/-!
# The shape of a trie that threads build

Insertions that overlap push leaves down that others have attached, and split what others have
pushed down. Still the tree is that of the keys, as if they had been inserted one after the other:
every internal node has two keys below it, each bound or about to be bound (`Shaping`). Since no
node is lost either, `card_nodes` counts the nodes that were allocated.
-/

namespace AttentionBroker

open Infra

/-- The key that a call of `insert` is given. -/
def Call.insertedKey {ρ : Type} : Call ρ → Option Key
  | .insert key _ => some key
  | .lookup _ => none

namespace HandleTrie

variable {ρ σ δ : Type} {ops : TrieValue ρ σ} {s s' : TrieThreads ρ σ δ}
  {sh sh' : SharedTrie ρ σ} {th th' : TrieThread ρ δ} {t : HandleTrie ρ} {K : Finset Key}
  {k : Key} {i : Nat}

/-- The keys that threads insert. -/
def insertedKeys (threads : List (TrieThread ρ δ)) : Finset Key :=
  ((threads.filterMap TrieThread.call).filterMap Call.insertedKey).toFinset

theorem mem_insertedKeys {threads : List (TrieThread ρ δ)} :
    k ∈ insertedKeys threads ↔ ∃ th ∈ threads, ∃ value, th.call = some (.insert k value) := by
  rw [insertedKeys, List.mem_toFinset]
  simp only [List.mem_filterMap]
  constructor
  · rintro ⟨c, ⟨th, hth, hcall⟩, hk⟩
    cases c with
    | insert key value =>
      obtain rfl := Option.some.inj hk
      exact ⟨th, hth, value, hcall⟩
    | lookup => cases hk
  · rintro ⟨th, hth, value, hcall⟩
    exact ⟨_, ⟨th, hth, hcall⟩, rfl⟩

/-! ## One step -/

/-- **Only an insertion that has the root behind it makes nodes**, as `Evolves` says. -/
theorem Sound.advance_evolves (h : Sound s) (hth : th ∈ s.locals)
    (hadv : th.advance ops s.shared = .ok (sh, th')) :
    sh.trie = s.shared.trie ∨ ∃ k, Inserting k th ∧ Evolves k s.shared.trie sh.trie := by
  rcases advance_iterated hadv with hsame | ⟨key, value, c, p, kc, stage, rfl, hit⟩
  · exact .inl hsame
  obtain ⟨hkey, hplaced⟩ := h.place _ hth
  cases stage with
  | entered => cases hit
  | holding c' p' kc' => exact .inr ⟨key, rfl, (hplaced.goesOn h.wf hkey ops value hit).2.1⟩
  | descending a p' kc' =>
    cases hit
    exact .inl (by split <;> rfl)
  | returned v => exact .inr ⟨key, rfl, (hplaced.returns h.wf hkey hit ops).2⟩

/-- The step in which an insertion returns binds its key. -/
theorem Advances.binds_returned {value v : ρ}
    (ha : Advances ops th sh sh' (.insert k value (.returned v))) : ∃ w, sh'.trie.Binds k w := by
  obtain ⟨stage, rfl⟩ := eq_insert_of_call ha.call.symm
  rcases ha.updates with ⟨hanswer, -⟩ | ⟨c, o, -, hcall, -, heffect⟩
  · cases stage with
    | returned => exact absurd ha.fewer (Nat.lt_irrefl 0)
    | entered | holding | descending => cases hanswer
  · obtain rfl := Option.some.inj hcall
    obtain ⟨-, w, -, hins⟩ := heffect
    rcases hins.result with ⟨hold, -, hbinds⟩ | ⟨-, -, -, hbinds⟩
    · exact ⟨w, (hbinds k w).mpr hold⟩
    · exact ⟨value, (hbinds k value).mpr (.inr ⟨rfl, rfl⟩)⟩

/-- An insertion that is under way stays so until its key is bound. -/
theorem Advances.inserting (ha : Advances ops th sh sh' th') (hk : Inserting k th) :
    (∃ w, sh'.trie.Binds k w) ∨ Inserting k th' := by
  obtain ⟨value, hcall⟩ := hk.call
  obtain ⟨stage, rfl⟩ := eq_insert_of_call hcall
  obtain ⟨stage', rfl⟩ := eq_insert_of_call (ha.call.trans hcall)
  cases stage' with
  | holding | descending => exact .inr rfl
  | returned v => exact .inl ha.binds_returned
  | entered =>
    have hfewer : 2 * sh'.trie.keySize + 3 < stage.toGo sh.trie.keySize := ha.fewer
    rw [ha.effect.keySize] at hfewer
    cases stage with
    | entered | returned => exact hk.elim
    | holding c p kc =>
      change _ < 2 * (sh.trie.keySize - kc.toNat) + 2 at hfewer
      omega
    | descending c p kc =>
      change _ < 2 * (sh.trie.keySize - kc.toNat) + 1 at hfewer
      omega

/-! ## All steps -/

/-- The key is bound, or an insertion of it has locked the root. -/
def Present (s : TrieThreads ρ σ δ) (k : Key) : Prop :=
  (∃ v, s.shared.trie.Binds k v) ∨ ∃ th ∈ s.locals, Inserting k th

/-- Two keys that are present share this path. -/
def Branches (s : TrieThreads ρ σ δ) (p : List Slot) : Prop :=
  ∃ k, Present s k ∧ ∃ k', Present s k' ∧ k ≠ k' ∧ p <+: code k ∧ p <+: code k'

/-- What every state satisfies while threads insert these keys into a new trie. -/
structure Shaping (K : Finset Key) (s : TrieThreads ρ σ δ) : Prop where
  sound : Sound s
  full : s.shared.trie.Full
  calls : ∀ k, k ∈ K ↔ ∃ th ∈ s.locals, ∃ value, th.call = some (.insert k value)
  given : ∀ k v, s.shared.trie.Binds k v → k ∈ K
  bound : ∀ k value v, .insert k value (.returned v) ∈ s.locals → ∃ w, s.shared.trie.Binds k w
  shared : ∀ p a, s.shared.trie.nodeAt p = some a → ¬ 0 < (s.shared.trie.node a).suffixStart →
    p ≠ [] → Branches s p

namespace Shaping

/-- **A key that is present stays present.** -/
theorem present_step (h : Shaping K s) (hth : s.locals[i]? = some th)
    (hadv : th.advance ops s.shared = .ok (sh, th')) (hk : Present s k) :
    Present { shared := sh, locals := s.locals.set i th' } k := by
  have ha := h.sound.advances (Parties.mem_of_get hth) hadv
  rcases hk with ⟨v, hv⟩ | hinserting
  · exact .inl ⟨v, ha.effect.toExtends.binds hv⟩
  · rcases (Parties.exists_locals hth).mp hinserting with hself | hother
    · rcases ha.inserting hself with hbound | hstill
      · exact .inl hbound
      · exact .inr ((Parties.exists_set hth th').mpr (.inl hstill))
    · exact .inr ((Parties.exists_set hth th').mpr (.inr hother))

theorem branches_step (h : Shaping K s) (hth : s.locals[i]? = some th)
    (hadv : th.advance ops s.shared = .ok (sh, th')) {p : List Slot} (hp : Branches s p) :
    Branches { shared := sh, locals := s.locals.set i th' } p := by
  obtain ⟨k, hk, k', hk', hshare⟩ := hp
  exact ⟨k, h.present_step hth hadv hk, k', h.present_step hth hadv hk', hshare⟩

/-- **A step of a thread leaves two keys below every internal node.** -/
theorem step (h : Shaping K s) (hstep : s.step (TrieThread.advance ops) i = some s') :
    Shaping K s' := by
  have hsound := (h.sound.step hstep).1
  have hfull := h.sound.step_full h.full hstep
  obtain ⟨-, rfl⟩ | ⟨th, sh, th', hth, hadv, rfl⟩ := Parties.step_cases hstep
  · exact h
  have hmem := Parties.mem_of_get hth
  have ha := h.sound.advances hmem hadv
  have hext := ha.effect.toExtends
  refine ⟨hsound, hfull, fun k => ?_, fun k v hb => ?_, fun k value v hr => ?_, ?_⟩
  · rw [h.calls, Parties.exists_locals hth, Parties.exists_set hth, ha.call]
  · rcases ha.binds_of hb with hb | ⟨value, stage, rfl⟩
    · exact h.given k v hb
    · exact (h.calls k).mpr ⟨_, hmem, value, rfl⟩
  · rcases List.mem_or_eq_of_mem_set hr with hold | rfl
    · obtain ⟨w, hw⟩ := h.bound k value v hold
      exact ⟨w, hext.binds hw⟩
    · exact ha.binds_returned
  · intro p a hp hin hne
    rcases h.sound.advance_evolves hmem hadv with htrie | ⟨k, hk, hev⟩
    · change sh.trie.nodeAt p = some a at hp
      change ¬ 0 < (sh.trie.node a).suffixStart at hin
      rw [htrie] at hp hin
      exact h.branches_step hth hadv (h.shared p a hp hin hne)
    · rcases hev.fresh p a hp hin with hp' | ⟨hpk, k', v, hne', hb, hpk'⟩
      · have hin' := hev.inner_of_inner hp' hin
        exact h.branches_step hth hadv (h.shared p a hp' hin' hne)
      · -- a new internal node is for the key that is inserted and one that is bound
        exact ⟨k, h.present_step hth hadv (.inr ⟨th, hmem, hk⟩), k',
          h.present_step hth hadv (.inl ⟨v, hb⟩), hne'.symm, hpk, hpk'⟩

/-- **When all calls have returned, the trie is tight.** -/
theorem tight (h : Shaping K s) (hreturned : ∀ th ∈ s.locals, th.Returned) :
    Tight s.shared.trie K := by
  have hbound : ∀ k, Present s k → k ∈ K := by
    rintro k (⟨v, hv⟩ | ⟨th, hth, hk⟩)
    · exact h.given k v hv
    · obtain ⟨value, hcall⟩ := hk.call
      exact (h.calls k).mpr ⟨th, hth, value, hcall⟩
  refine ⟨h.sound.wf, fun k => ⟨fun hk => ?_, fun ⟨v, hv⟩ => h.given k v hv⟩, ?_⟩
  · obtain ⟨th, hth, value, hcall⟩ := (h.calls k).mp hk
    obtain ⟨stage, rfl⟩ := eq_insert_of_call hcall
    obtain ⟨v, rfl⟩ := hreturned _ hth
    exact h.bound k value v hth
  · intro p a hp hin hne
    obtain ⟨k, hk, k', hk', hshare⟩ := h.shared p a hp hin hne
    exact ⟨k, hbound k hk, k', hbound k' hk', hshare⟩

end Shaping

/-! ## The number of nodes -/

/-- The prefixes that two of the keys share, without the empty one. -/
def sharedPrefixes (K : Finset Key) : Finset Key :=
  (K.biUnion fun k => (Finset.range (k.length + 1)).image k.take).filter fun w =>
    w ≠ [] ∧ ∃ k ∈ K, ∃ k' ∈ K, k ≠ k' ∧ w <+: k ∧ w <+: k'

theorem mem_sharedPrefixes {w : Key} : w ∈ sharedPrefixes K ↔
    w ≠ [] ∧ ∃ k ∈ K, ∃ k' ∈ K, k ≠ k' ∧ w <+: k ∧ w <+: k' := by
  rw [sharedPrefixes, Finset.mem_filter, and_iff_right_iff_imp]
  rintro ⟨-, k, hk, -, -, -, hw, -⟩
  refine Finset.mem_biUnion.mpr ⟨k, hk, Finset.mem_image.mpr ⟨w.length, ?_, ?_⟩⟩
  · exact Finset.mem_range_succ_iff.mpr hw.length_le
  · exact (List.prefix_iff_eq_take.mp hw).symm

/-- The paths of the nodes that have the shape of a shared prefix. -/
def innerPaths (K : Finset Key) : Finset (List Slot) := (sharedPrefixes K).image code

/-- The paths of the leaves. -/
def leafPaths (K : Finset Key) : Finset (List Slot) :=
  K.image fun k => (code k).take (leafDepth K k)

namespace Canonical

variable {p : List Slot}

theorem shapeAt_root (h : Canonical K t) : t.shapeAt [] = some .inner :=
  (h.shapeAt_iff .inner).mpr (.inl rfl)

theorem mem_innerPaths (h : Canonical K t) :
    p ∈ innerPaths K ↔ p ≠ [] ∧ t.shapeAt p = some .inner := by
  rw [innerPaths, Finset.mem_image, h.shapeAt_iff]
  constructor
  · rintro ⟨w, hw, rfl⟩
    obtain ⟨hne, hshared⟩ := mem_sharedPrefixes.mp hw
    exact ⟨fun hnil => hne (List.map_eq_nil_iff.mp hnil), .inr ⟨w, rfl, hshared⟩⟩
  · rintro ⟨hne, hinner⟩
    obtain ⟨w, rfl, hshared⟩ := hinner.resolve_left hne
    exact ⟨w, mem_sharedPrefixes.mpr ⟨fun hw => hne (hw ▸ rfl), hshared⟩, rfl⟩

theorem shapeAt_leafPath (h : Canonical K t) (hk : k ∈ K) :
    t.shapeAt ((code k).take (leafDepth K k)) = some (.leaf k (leafDepth K k)) :=
  (h.shapeAt_iff _).mpr ⟨hk, rfl, rfl⟩

theorem mem_leafPaths (h : Canonical K t) :
    p ∈ leafPaths K ↔ ∃ k n, t.shapeAt p = some (.leaf k n) := by
  rw [leafPaths, Finset.mem_image]
  constructor
  · rintro ⟨k, hk, rfl⟩
    exact ⟨k, _, h.shapeAt_leafPath hk⟩
  · rintro ⟨k, n, hshape⟩
    obtain ⟨hk, rfl, rfl⟩ := (h.shapeAt_iff _).mp hshape
    exact ⟨k, hk, rfl⟩

/-- **The nodes are the root, one for each shared prefix and one for each key.** -/
theorem exists_nodeAt (h : Canonical K t) (p : List Slot) :
    (∃ a, t.nodeAt p = some a) ↔ p = [] ∨ p ∈ innerPaths K ∨ p ∈ leafPaths K := by
  have hshape : (∃ a, t.nodeAt p = some a) ↔ ∃ x, t.shapeAt p = some x := by
    rw [← Option.isSome_iff_exists, ← Option.isSome_iff_exists, shapeAt, Option.isSome_map]
  rw [hshape, h.mem_innerPaths, h.mem_leafPaths]
  constructor
  · rintro ⟨x, hx⟩
    cases x with
    | inner =>
      by_cases hp : p = []
      · exact .inl hp
      · exact .inr (.inl ⟨hp, hx⟩)
    | leaf k n => exact .inr (.inr ⟨k, n, hx⟩)
  · rintro (rfl | ⟨-, hx⟩ | ⟨k, n, hx⟩)
    · exact ⟨_, h.shapeAt_root⟩
    · exact ⟨_, hx⟩
    · exact ⟨_, hx⟩

end Canonical

theorem Tight.card_innerPaths (h : Tight t K) : (innerPaths K).card = (sharedPrefixes K).card := by
  refine Finset.card_image_of_injOn fun w hw w' hw' hcode => ?_
  have hhex : ∀ w ∈ sharedPrefixes K, ∀ b ∈ w, IsHex b := by
    intro w hw b hb
    obtain ⟨-, k, hk, -, -, -, hwk, -⟩ := mem_sharedPrefixes.mp hw
    obtain ⟨v, hv⟩ := (h.bound k).mp hk
    exact (h.wf.valid_of_binds hv).2 b (hwk.subset hb)
  exact code_inj (hhex w hw) (hhex w' hw') hcode

theorem Tight.card_leafPaths (h : Tight t K) : (leafPaths K).card = K.card := by
  refine Finset.card_image_of_injOn fun k hk k' hk' hpath => ?_
  have hsame := h.canonical.shapeAt_leafPath hk'
  change (code k).take (leafDepth K k) = (code k').take (leafDepth K k') at hpath
  rw [← hpath, h.canonical.shapeAt_leafPath hk] at hsame
  exact (NodeShape.leaf.inj (Option.some.inj hsame)).1

/-- **A trie in which no node is lost has as many nodes as its tree.** -/
theorem Tight.card_nodes (h : Tight t K) (hfull : t.Full) :
    t.heap.next = 1 + (sharedPrefixes K).card + K.card := by
  have hcanonical := h.canonical
  let paths : Finset (List Slot) := {[]} ∪ innerPaths K ∪ leafPaths K
  have hmem : ∀ p, p ∈ paths ↔ ∃ a, t.nodeAt p = some a := by
    intro p
    rw [hcanonical.exists_nodeAt, Finset.mem_union, Finset.mem_union, Finset.mem_singleton,
      or_assoc]
  have hroot : Disjoint {[]} (innerPaths K) := by
    rw [Finset.disjoint_singleton_left, hcanonical.mem_innerPaths]
    exact fun hp => hp.1 rfl
  have hleaf : Disjoint ({[]} ∪ innerPaths K) (leafPaths K) := by
    rw [Finset.disjoint_left]
    intro p hp hl
    obtain ⟨k, n, hshape⟩ := hcanonical.mem_leafPaths.mp hl
    have hinner : t.shapeAt p = some .inner := by
      rcases Finset.mem_union.mp hp with hp | hp
      · rw [Finset.mem_singleton.mp hp, hcanonical.shapeAt_root]
      · exact (hcanonical.mem_innerPaths.mp hp).2
    rw [hinner] at hshape
    cases hshape
  calc t.heap.next = (Finset.range t.heap.next).card := (Finset.card_range _).symm
    _ = paths.card := by
      -- each address has one path, and each path of a node its address
      refine (Finset.card_nbij (fun p => (t.nodeAt p).getD 0) ?_ ?_ ?_).symm
      · intro p hp
        obtain ⟨a, ha⟩ := (hmem p).mp hp
        have hlt := h.wf.allocated p a ha
        simpa [ha] using hlt
      · intro p hp q hq heq
        obtain ⟨a, ha⟩ := (hmem p).mp hp
        obtain ⟨b, hb⟩ := (hmem q).mp hq
        obtain rfl : a = b := by simpa [ha, hb] using heq
        exact h.wf.tree p q a ha hb
      · intro a ha
        obtain ⟨p, hp⟩ := hfull a (Finset.mem_range.mp ha)
        exact ⟨p, (hmem p).mpr ⟨a, hp⟩, by simp [hp]⟩
    _ = 1 + (sharedPrefixes K).card + K.card := by
      rw [Finset.card_union_of_disjoint hleaf, Finset.card_union_of_disjoint hroot,
        Finset.card_singleton, h.card_innerPaths, h.card_leafPaths]

/-! ## From the beginning -/

theorem Shaping.start {keySize : Nat} (h0 : 0 < keySize) (h1 : keySize ≤ 255) (store : σ)
    {threads : List (TrieThread ρ δ)} (hbegins : ∀ th ∈ threads, th.Begins keySize) :
    Shaping (insertedKeys threads) (startThreads (new keySize h0 h1) store threads) where
  sound := Sound.start new_wf _ hbegins
  full := fun _ ha => ⟨[], congrArg some (Nat.lt_one_iff.mp ha).symm⟩
  calls := fun _ => mem_insertedKeys
  given := fun k v hb => absurd hb (new_wf.find_eq_none.mp (find_new k) v)
  bound := fun _ _ _ hth => (hbegins _ hth).elim
  shared := fun _ _ ha _ hp => absurd (nodeAt_new ha).1 hp

/--
**Threads build the tree of their keys**, whatever the interleaving.

Any threads use a new trie. When all calls have returned, the trie has the shape that insertions of
the same keys one after the other lead to, in any order. It has allocated the root, one node for
each non-empty prefix that two of the keys share and one for each key, and no other.
-/
theorem threads_canonical (ops : TrieValue ρ σ) {keySize : Nat} (h0 : 0 < keySize)
    (h1 : keySize ≤ 255) (store : σ) {threads : List (TrieThread ρ δ)}
    (hbegins : ∀ th ∈ threads, th.Begins keySize) (schedule : List Nat) {s : TrieThreads ρ σ δ}
    (hrun : run (Parties.step (TrieThread.advance ops))
      (startThreads (new keySize h0 h1) store threads) schedule = some s)
    (hreturned : ∀ th ∈ s.locals, th.Returned) :
    Canonical (insertedKeys threads) s.shared.trie ∧
      s.shared.trie.heap.next
        = 1 + (sharedPrefixes (insertedKeys threads)).card + (insertedKeys threads).card ∧
      ∀ (entries : List (Key × ρ)) (t : HandleTrie ρ) (store' : σ),
        (entries.map Prod.fst).toFinset = insertedKeys threads →
        (new keySize h0 h1 : HandleTrie ρ).insertAll ops store entries = .ok (t, store') →
        ∀ p, s.shared.trie.shapeAt p = t.shapeAt p := by
  have h : Shaping (insertedKeys threads) s := run_preserves (Shaping (insertedKeys threads))
    (fun _ _ _ h hstep => h.step hstep) hrun (Shaping.start h0 h1 store hbegins)
  have htight := h.tight hreturned
  refine ⟨htight.canonical, htight.card_nodes h.full, fun entries t store' hkeys hinsert p => ?_⟩
  have hvalid : ∀ e ∈ entries, ValidKey keySize e.1 := by
    intro e he
    have hk : e.1 ∈ insertedKeys threads := hkeys ▸ List.mem_toFinset.mpr (List.mem_map_of_mem he)
    obtain ⟨th, hth, value, hcall⟩ := mem_insertedKeys.mp hk
    obtain ⟨stage, rfl⟩ := eq_insert_of_call hcall
    cases stage with
    | entered => exact hbegins _ hth
    | holding | descending | returned => exact (hbegins _ hth).elim
  obtain ⟨r, hr, hsequential⟩ := insertAll_tight ops entries (new keySize h0 h1) ∅ store new_tight
    hvalid
  obtain rfl := Except.ok.inj (hr.symm.trans hinsert)
  rw [Finset.union_empty, hkeys] at hsequential
  exact htight.canonical.shapeAt_eq hsequential.canonical p

/-- Four nodes for `"00"`, which comes twice, and `"01"`. -/
theorem threads_canonical_merge :
    ∃ s : TrieThreads Nat (Nat → Nat) Unit,
      run (Parties.step (TrieThread.advance counterValue))
        (startThreads (new 2 (by decide) (by decide)) (fun _ => 1) mergingThreads)
          [0, 0, 1, 1, 1, 2, 2, 2, 2] = some s ∧
      s.shared.trie.heap.next = 4 ∧ Canonical (insertedKeys mergingThreads) s.shared.trie ∧
      s.shared.trie.heap.next = 1 + (sharedPrefixes (insertedKeys mergingThreads)).card
        + (insertedKeys mergingThreads).card := by
  obtain ⟨s, hrun, hnext, hresults⟩ : ∃ s : TrieThreads Nat (Nat → Nat) Unit,
      run (Parties.step (TrieThread.advance counterValue))
        (startThreads (new 2 (by decide) (by decide)) (fun _ => 1) mergingThreads)
          [0, 0, 1, 1, 1, 2, 2, 2, 2] = some s ∧
      s.shared.trie.heap.next = 4 ∧
      s.locals = [.insert [48, 48] 0 (.returned 0), .insert [48, 48] 2 (.returned 0),
        .insert [48, 49] 1 (.returned 1)] :=
    ⟨_, rfl, rfl, rfl⟩
  have hbegins : ∀ th ∈ mergingThreads, th.Begins 2 := by
    simp [mergingThreads, TrieThread.Begins, ValidKey, IsHex]
  have hreturned : ∀ th ∈ s.locals, th.Returned := by
    rw [hresults]
    simp [TrieThread.Returned]
  obtain ⟨hcanonical, hcard, -⟩ := threads_canonical counterValue (by decide) (by decide) _ hbegins
    _ hrun hreturned
  exact ⟨s, hrun, hnext, hcanonical, hcard⟩

end HandleTrie

end AttentionBroker
