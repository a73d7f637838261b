import Mathlib.Data.Finset.Card
import Mathlib.Data.Fintype.BigOperators
import Mathlib.Order.Lattice.Nat
import AttentionBroker.Hebbian.Counting

/-!
# Arities and edges agree

The arity of a node is raised where the count of an edge is found to be 1 after the
insertion. `Graph.Tallied` says that this finds every new edge exactly once, as long as no
pair is added `2 ^ 32` times, and `Graph.Capped` that `largestArity` is the largest arity,
as long as no arity wraps around.

Together with `Ends` they give the representation invariant of the network. The arity of a
node with `2 ^ 32` neighbors is 0, which is where the bound on the partners of a handle comes from.
-/

namespace AttentionBroker

open Infra Finset

namespace Graph

variable {κ : Type*} [DecidableEq κ] {g : Graph κ} {a b x y : κ} {ps done todo : List (κ × κ)}

/-! ## Arities -/

/-- How often a pair is among some additions. -/
def added (ps : List (κ × κ)) (p : κ × κ) : Nat := ps.count p

theorem added_append (ps qs : List (κ × κ)) (p : κ × κ) :
    added (ps ++ qs) p = added ps p + added qs p :=
  List.count_append

theorem added_perm (h : ps.Perm done) (p : κ × κ) : added ps p = added done p := h.count_eq p

theorem added_cons_self (p : κ × κ) (ps : List (κ × κ)) : added (p :: ps) p = added ps p + 1 :=
  List.count_cons_self

/-- What the additions `ps` have left: neighbors, counts and arities. -/
structure Tallied (g : Graph κ) (ps : List (κ × κ)) : Prop where
  neighbors : ∀ a b, b ∈ g.neighbors a ↔ (a, b) ∈ ps
  edgeCount : ∀ a b, g.edgeCount a b = UInt32.ofNat (added ps (a, b))
  arity : ∀ a, g.arity a = UInt32.ofNat (g.neighbors a).card

theorem addEdge_neighbors_eq (g : Graph κ) (x y a : κ) :
    (g.addEdge (x, y)).neighbors a = if a = x then insert y (g.neighbors x) else g.neighbors a := by
  ext b
  rw [addEdge_neighbors]
  by_cases ha : a = x
  · rw [if_pos ha, ha, mem_insert, Prod.mk.injEq]
    tauto
  · rw [if_neg ha, Prod.mk.injEq]
    tauto

/-- The test for 1 after the insertion finds exactly the new edges. -/
theorem Tallied.count_eq_one (t : Tallied g ps) (h : added ps (x, y) + 1 < 2 ^ 32) :
    g.edgeCount x y + 1 = 1 ↔ y ∉ g.neighbors x := by
  rw [t.edgeCount, t.neighbors, ← List.count_eq_zero]
  change _ ↔ added ps (x, y) = 0
  constructor
  · intro h1
    have h2 : (UInt32.ofNat (added ps (x, y) + 1)).toNat = 1 := by
      rw [UInt32.ofNat_add]
      exact congrArg UInt32.toNat h1
    rw [HebbianNetwork.toNat_ofNat h] at h2
    omega
  · intro h0
    rw [h0]
    rfl

theorem Tallied.addEdge (t : Tallied g ps) (h : added ps (x, y) + 1 < 2 ^ 32) :
    Tallied (g.addEdge (x, y)) (ps ++ [(x, y)]) where
  neighbors a b := by
    rw [addEdge_neighbors, t.neighbors, List.mem_append, List.mem_singleton]
  edgeCount a b := by
    rw [addEdge_edgeCount, t.edgeCount, added_append, UInt32.ofNat_add]
    by_cases hp : (a, b) = (x, y)
    · simp [hp, added]
    · simp [hp, Ne.symm hp, added]
  arity a := by
    rw [addEdge_arity, addEdge_neighbors_eq]
    simp only [t.count_eq_one h]
    by_cases ha : a = x
    · subst ha
      by_cases hy : y ∈ g.neighbors a
      · rw [if_neg (fun h => h.1 hy), if_pos rfl, insert_eq_of_mem hy, t.arity]
      · rw [if_pos ⟨hy, rfl⟩, if_pos rfl, card_insert_of_notMem hy, UInt32.ofNat_add, t.arity]
        rfl
    · rw [if_neg (fun h => ha h.2), if_neg ha, t.arity]

theorem Tallied.addEdges (t : Tallied g done) (h : ∀ p, added (done ++ todo) p < 2 ^ 32) :
    Tallied (todo.foldl Graph.addEdge g) (done ++ todo) := by
  induction todo generalizing g done with
  | nil => simpa using t
  | cons p todo ih =>
    obtain ⟨x, y⟩ := p
    have hsplit : done ++ (x, y) :: todo = done ++ [(x, y)] ++ todo := by simp
    have hxy := h (x, y)
    rw [added_append, added_cons_self] at hxy
    rw [hsplit] at h ⊢
    exact ih (t.addEdge (by omega)) h

/-- The neighbors of a node are partners of its handle. -/
theorem Tallied.card_neighbors_lt {partners : κ → Finset κ} (t : Tallied g ps)
    (hmem : ∀ p ∈ ps, p.2 ∈ partners p.1) (hcard : ∀ a, (partners a).card < 2 ^ 32) (a : κ) :
    (g.neighbors a).card < 2 ^ 32 := by
  have hsub : g.neighbors a ⊆ partners a := fun b hb => hmem (a, b) ((t.neighbors a b).mp hb)
  exact (card_le_card hsub).trans_lt (hcard a)

/-! ## The largest arity -/

/-- `largestArity` is the largest arity of a node. -/
structure Capped (g : Graph κ) : Prop where
  arity_le : ∀ a, g.arity a ≤ g.largestArity
  attained : g.largestArity = 0 ∨ ∃ a ∈ g.nodes, g.arity a = g.largestArity

theorem Capped.addEdge (c : Capped g) (hx : x ∈ g.nodes)
    (hlt : g.edgeCount x y + 1 = 1 → (g.arity x).toNat + 1 < 2 ^ 32) :
    Capped (g.addEdge (x, y)) := by
  refine ⟨addEdge_arity_le c.arity_le, ?_⟩
  have hnodes : (g.addEdge (x, y)).nodes = g.nodes := foldl_addEdge_nodes [(x, y)] g
  rw [hnodes, addEdge_largestArity]
  by_cases hc : g.edgeCount x y + 1 = 1
  · have hsucc : (g.arity x + 1).toNat = (g.arity x).toNat + 1 := by
      have := hlt hc
      rw [UInt32.toNat_add]
      exact Nat.mod_eq_of_lt this
    by_cases hl : g.largestArity < g.arity x + 1
    · exact .inr ⟨x, hx, by rw [addEdge_arity, if_pos ⟨hc, rfl⟩, if_pos ⟨hc, hl⟩]⟩
    · rw [if_neg fun h => hl h.2]
      have hlt' : (g.arity x).toNat < g.largestArity.toNat := by
        have := UInt32.le_iff_toNat_le.mp (UInt32.not_lt.mp hl)
        omega
      rcases c.attained with h0 | ⟨a, ha, he⟩
      · exact .inl h0
      -- the node with the largest arity is another one and keeps it
      · have hne : a ≠ x := by
          rintro rfl
          rw [he] at hlt'
          exact Nat.lt_irrefl _ hlt'
        exact .inr ⟨a, ha, by rw [addEdge_arity, if_neg fun h => hne h.2, he]⟩
  · rw [if_neg fun h => hc h.1]
    rcases c.attained with h0 | ⟨a, ha, he⟩
    · exact .inl h0
    · exact .inr ⟨a, ha, by rw [addEdge_arity, if_neg fun h => hc h.1, he]⟩

/-- **Both invariants over a list of additions.** -/
theorem Capped.addEdges {partners : κ → Finset κ} (hcard : ∀ a, (partners a).card < 2 ^ 32)
    (t : Tallied g done) (c : Capped g) (h : ∀ p, added (done ++ todo) p < 2 ^ 32)
    (hmem : ∀ p ∈ done ++ todo, p.2 ∈ partners p.1) (hnodes : ∀ p ∈ todo, p.1 ∈ g.nodes) :
    Capped (todo.foldl Graph.addEdge g) := by
  induction todo generalizing g done with
  | nil => exact c
  | cons p todo ih =>
    obtain ⟨x, y⟩ := p
    have hsplit : done ++ (x, y) :: todo = done ++ [(x, y)] ++ todo := by simp
    have hcount : added done (x, y) + 1 < 2 ^ 32 := by
      have hxy := h (x, y)
      rw [added_append, added_cons_self] at hxy
      omega
    rw [hsplit] at h hmem
    have hnodes' : (g.addEdge (x, y)).nodes = g.nodes := foldl_addEdge_nodes [(x, y)] g
    refine ih (t.addEdge hcount) (c.addEdge (hnodes (x, y) List.mem_cons_self) fun hnew => ?_) h
      hmem fun q hq => hnodes'.symm ▸ hnodes q (List.mem_cons_of_mem _ hq)
    -- the edge is new, so it is one more neighbor, and these are below `2 ^ 32`
    have hnew' := (t.count_eq_one hcount).mp hnew
    have hlt := (t.addEdge hcount).card_neighbors_lt (fun p hp =>
      hmem p (List.mem_append_left _ hp)) hcard x
    rw [addEdge_neighbors_eq, if_pos rfl, card_insert_of_notMem hnew'] at hlt
    rwa [t.arity, HebbianNetwork.toNat_ofNat (Nat.lt_of_succ_lt hlt)]

omit [DecidableEq κ] in
/-- The cap is the maximum over all nodes, and 0 without nodes. -/
theorem Capped.largestArity_eq (c : Capped g) :
    g.largestArity.toNat = g.nodes.sup fun k => (g.arity k).toNat := by
  refine Nat.le_antisymm ?_ (Finset.sup_le fun k _ => UInt32.le_iff_toNat_le.mp (c.arity_le k))
  rcases c.attained with h0 | ⟨k, hk, he⟩
  · rw [h0]
    exact Nat.zero_le _
  · rw [← he]
    exact le_sup (f := fun k => (g.arity k).toNat) hk

/-! ## Requests -/

/-- The additions of some lists. -/
def additions [LT κ] [DecidableLT κ] (lists : List (List κ)) : List (κ × κ) :=
  lists.flatMap edgePairs

theorem added_additions [LT κ] [DecidableLT κ] [Std.Asymm (α := κ) (· < ·)]
    [Std.Trichotomous (α := κ) (· < ·)] (lists : List (List κ)) (a b : κ) :
    added (additions lists) (a, b) = if a = b then 0 else cooccurrences lists a b := by
  rw [added, additions, List.count_flatMap, Function.comp_def]
  simp only [count_edgePairs]
  by_cases hab : a = b
  · simp [hab]
  · simp only [hab, if_false]
    rfl

theorem tallied_process {done : List (Key × Key)} (requests : List Request) :
    ∀ {g : Graph Key}, Tallied g done →
      (∀ p, added (done ++ additions (handleLists requests)) p < 2 ^ 32) →
      Tallied (requests.foldl process g) (done ++ additions (handleLists requests)) := by
  induction requests generalizing done with
  | nil => intro g t _; simpa [additions, handleLists] using t
  | cons r rs ih =>
    intro g t h
    cases r with
    | stimulus q => exact ih (g := g.process (.stimulus q)) ⟨t.neighbors, t.edgeCount, t.arity⟩ h
    | correlation l =>
      have hlists : additions (handleLists (.correlation l :: rs))
          = edgePairs l ++ additions (handleLists rs) := rfl
      rw [hlists, ← List.append_assoc] at h ⊢
      obtain ⟨hn, he, ha, -⟩ := foldl_addNode_links l g
      have t' : Tallied (l.foldl addNode g) done :=
        ⟨by rw [hn]; exact t.neighbors, by rw [he]; exact t.edgeCount,
          by rw [ha, hn]; exact t.arity⟩
      refine ih (t'.addEdges fun p => ?_) h
      have hp := h p
      rw [added_append] at hp
      omega

theorem capped_process {partners : Key → Finset Key} (hcard : ∀ a, (partners a).card < 2 ^ 32)
    {done : List (Key × Key)} (requests : List Request) :
    ∀ {g : Graph Key}, Tallied g done → Capped g →
      (∀ p, added (done ++ additions (handleLists requests)) p < 2 ^ 32) →
      (∀ p ∈ done ++ additions (handleLists requests), p.2 ∈ partners p.1) →
      Capped (requests.foldl process g) := by
  induction requests generalizing done with
  | nil => intro g _ c _ _; exact c
  | cons r rs ih =>
    intro g t c h hmem
    cases r with
    | stimulus q =>
      exact ih (g := g.process (.stimulus q)) ⟨t.neighbors, t.edgeCount, t.arity⟩
        ⟨c.arity_le, c.attained⟩ h hmem
    | correlation l =>
      have hlists : additions (handleLists (.correlation l :: rs))
          = edgePairs l ++ additions (handleLists rs) := rfl
      rw [hlists, ← List.append_assoc] at h hmem
      obtain ⟨hn, he, ha, hlargest⟩ := foldl_addNode_links l g
      have t' : Tallied (l.foldl addNode g) done :=
        ⟨by rw [hn]; exact t.neighbors, by rw [he]; exact t.edgeCount,
          by rw [ha, hn]; exact t.arity⟩
      have c' : Capped (l.foldl addNode g) := by
        refine ⟨by rw [ha, hlargest]; exact c.arity_le, ?_⟩
        rw [ha, hlargest]
        rcases c.attained with h0 | ⟨b, hb, heq⟩
        · exact .inl h0
        · exact .inr ⟨b, mem_foldl_addNode.mpr (.inl hb), heq⟩
      have hpre : ∀ p, added (done ++ edgePairs l) p < 2 ^ 32 := fun p => by
        have hp := h p
        rw [added_append] at hp
        omega
      refine ih (t'.addEdges hpre) (Capped.addEdges hcard t' c' hpre
        (fun p hp => hmem p (List.mem_append_left _ hp)) fun p hp => ?_) h hmem
      exact mem_foldl_addNode.mpr (.inr (mem_edgePairs.mp hp).2.1)

theorem tallied_empty : Tallied (Graph.empty : Graph κ) [] where
  neighbors a b := by simp [Graph.empty]
  edgeCount a b := rfl
  arity a := rfl

omit [DecidableEq κ] in
theorem capped_empty : Capped (Graph.empty : Graph κ) where
  arity_le _ := UInt32.le_refl _
  attained := .inl rfl

end Graph

namespace HebbianNetwork

variable {net : HebbianNetwork} {requests : List Request} {a b k : Key}

/-! ## The representation invariant -/

/-- What the fields of nodes and edges promise. -/
structure Represented (net : HebbianNetwork) : Prop where
  arity : ∀ k a, net.nodeRef k = some a →
    (net.node a).arity.toNat = (net.node a).neighbors.keySet.card
  arity_le : ∀ k a, net.nodeRef k = some a → (net.node a).arity ≤ net.largestArity
  largestArity : net.largestArity.toNat
    = net.nodes.keySet.sup fun k => (net.graph.arity k).toNat
  count_pos : ∀ k h e, net.edgeRef k h = some e → 1 ≤ (net.edge e).count
  node1 : ∀ k a h e, net.nodeRef k = some a → net.edgeRef k h = some e →
    (net.edge e).node1 = some a
  node2 : ∀ k h e, net.edgeRef k h = some e →
    ∃ b, (net.edge e).node2 = some b ∧ lookupNode h net = .ok (some b) net
  ne : ∀ k h e, net.edgeRef k h = some e → h ≠ k
  reverse : ∀ k h e, net.edgeRef k h = some e →
    ∃ e', net.edgeRef h k = some e' ∧ (net.edge e').count = (net.edge e).count

/-- The other handles that occur in a correlation request with this one. -/
def partners (requests : List Request) (k : Key) : Finset Key :=
  ((handleLists requests).filter (k ∈ ·)).flatten.toFinset.erase k

theorem mem_additions {lists : List (List Key)} :
    (a, b) ∈ Graph.additions lists ↔ a ≠ b ∧ ∃ l ∈ lists, a ∈ l ∧ b ∈ l := by
  simp only [Graph.additions, List.mem_flatMap, Graph.mem_edgePairs]
  tauto

theorem added_lt
    (hpairs : ∀ a b, a ≠ b → cooccurrences (handleLists requests) a b < 2 ^ 32)
    (p : Key × Key) : Graph.added (Graph.additions (handleLists requests)) p < 2 ^ 32 := by
  obtain ⟨a, b⟩ := p
  rw [Graph.added_additions]
  by_cases hab : a = b
  · simp [hab]
  · rw [if_neg hab]
    exact hpairs a b hab

theorem mem_partners {p : Key × Key} (hp : p ∈ Graph.additions (handleLists requests)) :
    p.2 ∈ partners requests p.1 := by
  obtain ⟨hne, l, hl, ha, hb⟩ := mem_additions.mp hp
  refine mem_erase.mpr ⟨hne.symm, List.mem_toFinset.mpr (List.mem_flatten.mpr ⟨l, ?_, hb⟩)⟩
  exact List.mem_filter.mpr ⟨hl, decide_eq_true ha⟩

theorem card_partners_le (requests : List Request) (k : Key) :
    (partners requests k).card ≤ (handleLists requests).flatten.length := by
  have hsub : (((handleLists requests).filter (k ∈ ·)).flatten).Sublist
      (handleLists requests).flatten := List.filter_sublist.flatten
  calc (partners requests k).card ≤ ((handleLists requests).filter (k ∈ ·)).flatten.toFinset.card :=
        card_le_card (erase_subset k _)
    _ ≤ ((handleLists requests).filter (k ∈ ·)).flatten.length := List.toFinset_card_le _
    _ ≤ (handleLists requests).flatten.length := hsub.length_le

/-- The graph after some requests. -/
theorem run_tallied (hr : ∀ r ∈ requests, r.Valid)
    (hpairs : ∀ a b, a ≠ b → cooccurrences (handleLists requests) a b < 2 ^ 32)
    (hpartners : ∀ k, (partners requests k).card < 2 ^ 32) :
    ∃ net, run process new requests = some net ∧ net.Sound ∧
      net.graph.Tallied (Graph.additions (handleLists requests)) ∧ net.graph.Capped := by
  obtain ⟨net, hrun, s, hg⟩ := run_process sound_new hr
  rw [graph_new] at hg
  refine ⟨net, hrun, s, ?_⟩
  rw [hg]
  exact ⟨Graph.tallied_process requests Graph.tallied_empty (added_lt hpairs),
    Graph.capped_process hpartners requests Graph.tallied_empty Graph.capped_empty
      (added_lt hpairs) fun _ hp => mem_partners hp⟩

/--
**The representation invariant.**

It holds after any complete requests that add no ordered pair `2 ^ 32` times and bring no handle
together with `2 ^ 32` different ones.
-/
theorem represented_of_requests (hr : ∀ r ∈ requests, r.Valid)
    (hpairs : ∀ a b, a ≠ b → cooccurrences (handleLists requests) a b < 2 ^ 32)
    (hpartners : ∀ k, (partners requests k).card < 2 ^ 32) :
    ∃ net, run process new requests = some net ∧ net.Represented := by
  obtain ⟨net, hrun, s, t, c⟩ := run_tallied hr hpairs hpartners
  have hcount : ∀ k h, net.graph.edgeCount k h
      = UInt32.ofNat (if k = h then 0 else cooccurrences (handleLists requests) k h) :=
    fun k h => by rw [t.edgeCount, Graph.added_additions]
  have hpair : ∀ k h e, net.edgeRef k h = some e →
      k ≠ h ∧ ∃ l ∈ handleLists requests, k ∈ l ∧ h ∈ l := fun k h e he =>
    mem_additions.mp ((t.neighbors k h).mp (s.wf.mem_neighbors.mpr ⟨e, he⟩))
  refine ⟨net, hrun, ?_⟩
  constructor
  · intro k a ha
    have hn : net.graph.neighbors k = (net.node a).neighbors.keySet := nodeField_of_ref ha
    rw [← hn, ← graph_arity ha, t.arity]
    exact toNat_ofNat (t.card_neighbors_lt (fun _ hp => mem_partners hp) hpartners k)
  · intro k a ha
    rw [← graph_arity ha]
    exact c.arity_le k
  · exact c.largestArity_eq
  · intro k h e he
    obtain ⟨hne, hco⟩ := hpair k h e he
    rw [← graph_edgeCount he, hcount, if_neg hne, UInt32.le_iff_toNat_le,
      toNat_ofNat (hpairs k h hne)]
    exact cooccurrences_pos hco
  · intro k a h e ha he
    rw [s.ends.node1 k h e he, ha]
  · intro k h e he
    obtain ⟨b, hb⟩ := s.ends.stored k h e he
    refine ⟨b, by rw [s.ends.node2 k h e he, hb], ?_⟩
    rw [lookupNode_eq s.wf (s.wf.isHandle hb), hb]
  · intro k h e he
    exact (s.ends.ne k h e he).symm
  · intro k h e he
    obtain ⟨hne, l, hl, hk, hh⟩ := hpair k h e he
    obtain ⟨e', he'⟩ := s.wf.mem_neighbors.mp
      ((t.neighbors h k).mpr (mem_additions.mpr ⟨hne.symm, l, hl, hh, hk⟩))
    refine ⟨e', he', ?_⟩
    rw [← graph_edgeCount he, ← graph_edgeCount he', hcount, hcount, if_neg hne, if_neg hne.symm,
      cooccurrences_comm]

/-- `ab`, a stimulus of `a`, and `bc`, where a letter stands for the handle made of it. -/
theorem represented_of_requests_ab_bc :
    ∃ net, run process new [.correlation [handleOf 97, handleOf 98],
        .stimulus (stimulusOf (handleOf 97) (by decide)),
        .correlation [handleOf 98, handleOf 99]] = some net ∧
      net.Represented :=
  represented_of_requests
    (by
      intro r hr
      simp only [List.mem_cons, List.not_mem_nil, or_false] at hr
      rcases hr with rfl | rfl | rfl
      · exact (by decide +kernel : ∀ k ∈ [handleOf 97, handleOf 98], IsHandle k)
      · exact stimulusOf_valid _ (by decide +kernel)
      · exact (by decide +kernel : ∀ k ∈ [handleOf 98, handleOf 99], IsHandle k))
    (fun a b _ => (cooccurrences_le _ a b).trans_lt (by decide))
    fun k => (card_partners_le _ k).trans_lt (by decide)

/-! ## Too many neighbors -/

theorem symbolOf_injective : Function.Injective symbolOf := by
  intro c c' h
  rw [← (symbolOf_spec c).2, h, (symbolOf_spec c').2]

theorem exists_handles {n : Nat} (hn : n ≤ 16 ^ 32) :
    ∃ l : List Key, l.Nodup ∧ l.length = n ∧ ∀ k ∈ l, IsHandle k := by
  let name : (Fin 32 → Slot) → Key := fun f => List.ofFn fun i => symbolOf (f i)
  have hname : Function.Injective name := by
    intro f f' h
    have h' := List.ofFn_injective h
    exact funext fun i => symbolOf_injective (congrFun h' i)
  refine ⟨((univ : Finset (Fin 32 → Slot)).toList.take n).map name, ?_, ?_, ?_⟩
  · exact ((Finset.nodup_toList _).sublist (List.take_sublist _ _)).map hname
  · rw [List.length_map, List.length_take, Finset.length_toList, Finset.card_univ,
      Fintype.card_fun, Fintype.card_fin, Fintype.card_fin]
    exact Nat.min_eq_left hn
  · intro k hk
    obtain ⟨f, -, rfl⟩ := List.mem_map.mp hk
    refine ⟨by simp [name, handleHashSize], fun c hc => ?_⟩
    obtain ⟨i, rfl⟩ := List.mem_ofFn.mp hc
    exact (symbolOf_spec (f i)).1

/-- Lists of a handle and one of some others. -/
def hub {κ : Type*} (k : κ) (l : List κ) : List (List κ) := l.map fun h => [k, h]

/-- A pair is added at most as often as its handles are among the others. -/
theorem cooccurrences_hub {κ : Type*} [DecidableEq κ] {k a b : κ} (hab : a ≠ b) :
    ∀ {l : List κ}, k ∉ l → cooccurrences (hub k l) a b ≤ l.count a + l.count b := by
  intro l
  induction l with
  | nil => intro _; exact Nat.le_refl _
  | cons h l ih =>
    intro hk
    rw [List.mem_cons, not_or] at hk
    have hnd : [k, h].Nodup := by simp [hk.1]
    have hle : ∀ x, [k, h].count x ≤ 1 := List.nodup_iff_count_le_one.mp hnd
    have hfirst : [k, h].count a * [k, h].count b ≤ [h].count a + [h].count b := by
      by_cases ha : k = a
      · have hb : [k, h].count b = [h].count b := List.count_cons_of_ne (ha ▸ hab)
        have hmul := Nat.mul_le_mul_right ([h].count b) (hle a)
        rw [hb]
        omega
      · have ha' : [k, h].count a = [h].count a := List.count_cons_of_ne ha
        have hmul := Nat.mul_le_mul_left ([h].count a) (hle b)
        rw [ha']
        omega
    have hcons : ∀ x, (h :: l).count x = [h].count x + l.count x := fun x => by
      rw [← List.count_append, List.singleton_append]
    have hrest := ih hk.2
    simp only [cooccurrences, hub, List.map_cons, List.sum_cons] at hrest ⊢
    rw [hcons a, hcons b]
    omega

theorem cooccurrences_hub_le_two {κ : Type*} [DecidableEq κ] {k a b : κ} {l : List κ}
    (hab : a ≠ b) (hk : k ∉ l) (hnd : l.Nodup) : cooccurrences (hub k l) a b ≤ 2 := by
  have hcount := List.nodup_iff_count_le_one.mp hnd
  exact (cooccurrences_hub hab hk).trans (Nat.add_le_add (hcount a) (hcount b))

/--
After `2 ^ 32` lists of a handle and another one, no pair has been added more than twice, and
no arity of 32 bits can be the number of neighbors that the handle has.
-/
theorem represented_fails_at_two_pow :
    ∃ k l, (∀ h ∈ k :: l, IsHandle h) ∧
      (∀ a b, a ≠ b → cooccurrences (hub k l) a b ≤ 2) ∧
      ∃ net, run process new ((hub k l).map .correlation) = some net ∧ ¬ net.Represented := by
  obtain ⟨l', hnd, hlen, hl'⟩ := exists_handles (n := 2 ^ 32 + 1) (by decide)
  obtain ⟨k, l, rfl⟩ : ∃ k l, l' = k :: l := List.exists_cons_of_length_eq_add_one hlen
  obtain ⟨hk, hnd⟩ := List.nodup_cons.mp hnd
  have hpair : ∀ h ∈ l, ∀ x ∈ [k, h], IsHandle x := by
    intro h hh x hx
    simp only [List.mem_cons, List.not_mem_nil, or_false] at hx
    rcases hx with rfl | rfl
    · exact hl' x List.mem_cons_self
    · exact hl' x (List.mem_cons_of_mem _ hh)
  have hlists : ∀ l' ∈ hub k l, ∀ h ∈ l', IsHandle h := by
    intro l' hmem
    obtain ⟨h, hh, rfl⟩ := List.mem_map.mp hmem
    exact hpair h hh
  obtain ⟨net, hrun, s, -, -, hneighbors⟩ := run_correlations hlists
  refine ⟨k, l, hl', fun a b hab => ?_, net, hrun, fun hrep => ?_⟩
  · exact cooccurrences_hub_le_two hab hk hnd
  -- the handle in all the lists has `2 ^ 32` neighbors, one more than an arity can say
  · have hneigh : net.graph.neighbors k = l.toFinset := by
      ext h
      rw [hneighbors, List.mem_toFinset]
      constructor
      · rintro ⟨hne, l', hmem, -, hh⟩
        obtain ⟨h', hh', rfl⟩ := List.mem_map.mp hmem
        have hcases : h = k ∨ h = h' := by simpa using hh
        rcases hcases with rfl | rfl
        · exact absurd rfl hne
        · exact hh'
      · intro hh
        exact ⟨fun he => hk (he ▸ hh), [k, h], List.mem_map_of_mem hh, by simp, by simp⟩
    have hcard : (net.graph.neighbors k).card = 2 ^ 32 := by
      rw [hneigh, List.toFinset_card_of_nodup hnd]
      exact Nat.succ.inj hlen
    obtain ⟨h, hh⟩ : (net.graph.neighbors k).Nonempty :=
      card_pos.mp (by rw [hcard]; exact Nat.two_pow_pos 32)
    obtain ⟨e, he⟩ := s.wf.mem_neighbors.mp hh
    obtain ⟨a, ha⟩ := nodeRef_of_edgeRef he
    have hn : net.graph.neighbors k = (net.node a).neighbors.keySet := nodeField_of_ref ha
    have harity := hrep.arity k a ha
    rw [← hn, hcard] at harity
    exact absurd (UInt32.toNat_lt (net.node a).arity) (by rw [harity]; exact Nat.lt_irrefl _)

end HebbianNetwork

end AttentionBroker
