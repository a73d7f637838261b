import AttentionBroker.Trie.Canonical

/-!
# `HandleTrie::traverse` enumerates the keys

The documentation calls the traversal in-order and says nothing of how it ends early. Here the
visit function is any function, with a record of its calls. `Enumerates` compares the record
with the sorted list of the inserted keys.
-/

namespace AttentionBroker.HandleTrie

open Infra

variable {ρ σ δ : Type} {t : HandleTrie ρ} {K : Finset Key}

/-- A call of the visit function: the node and what it returned. -/
abbrev VisitCall (ρ : Type) := TrieNode ρ × Bool

/-- A visit function with a record of its calls. -/
def logging (visit : TrieNode ρ → δ → Bool × δ) (n : TrieNode ρ) (data : δ × List (VisitCall ρ)) :
    Except Fault (Bool × (δ × List (VisitCall ρ))) :=
  let (stop, data') := visit n data.1
  .ok (stop, data', data.2 ++ [(n, stop)])

/-- The keys a visit function was called on. -/
def visitedKeys (calls : List (VisitCall ρ)) : List Key := calls.map fun c => c.1.suffix

/-- The last call is the first that returned true. -/
def StopsEarly (calls : List (VisitCall ρ)) : Prop :=
  ∃ before n, calls = before ++ [(n, true)] ∧ ∀ c ∈ before, c.2 = false

/-- The calls are on the leaves of the keys in `K`, from the smallest key up. -/
structure Enumerates (t : HandleTrie ρ) (K : Finset Key) (calls : List (VisitCall ρ)) : Prop where
  leaf : ∀ c ∈ calls, 0 < c.1.suffixStart ∧ ∃ v, c.1.value = some v ∧
    t.lookup c.1.suffix = .ok (some v)
  increasing : (visitedKeys calls).Pairwise (· < ·)
  segment : ∃ sorted : List Key, sorted.Pairwise (· < ·) ∧ (∀ k, k ∈ sorted ↔ k ∈ K) ∧
    visitedKeys calls <+: sorted ∧
    ((∀ c ∈ calls, c.2 = false) → visitedKeys calls = sorted) ∧
    ((∃ c ∈ calls, c.2 = true) → StopsEarly calls)

/-- One call after the other, up to the first that returns true. -/
theorem visitAll_logging (visit : TrieNode ρ → δ → Bool × δ) : ∀ (ns : List (TrieNode ρ)) (data : δ)
    (log : List (VisitCall ρ)), ∃ data' calls,
      visitAll (logging visit) ns (data, log) = .ok (data', log ++ calls) ∧
      calls.map Prod.fst <+: ns ∧
      ((∀ c ∈ calls, c.2 = false) → calls.map Prod.fst = ns) ∧
      ((∃ c ∈ calls, c.2 = true) → StopsEarly calls) := by
  intro ns
  induction ns with
  | nil =>
    intro data log
    exact ⟨data, [], by simp [visitAll], List.nil_prefix, fun _ => rfl, by simp⟩
  | cons n ns ih =>
    intro data log
    rcases hv : visit n data with ⟨stop, data₁⟩
    cases stop with
    | true =>
      refine ⟨data₁, [(n, true)], ?_, ?_, ?_, ?_⟩
      · simp [visitAll, logging, hv, bind, Except.bind]
      · simp
      · simp
      · exact fun _ => ⟨[], n, rfl, by simp⟩
    | false =>
      obtain ⟨data', calls, hrun, hpre, hall, hstop⟩ := ih data₁ (log ++ [(n, false)])
      refine ⟨data', (n, false) :: calls, ?_, ?_, ?_, ?_⟩
      · rw [visitAll]
        simp only [logging, hv, bind, Except.bind, Bool.false_eq_true, if_false]
        rw [hrun, List.append_assoc]
        rfl
      · simpa using hpre
      · intro h
        simpa using hall fun c hc => h c (List.mem_cons_of_mem _ hc)
      · rintro ⟨c, hc, htrue⟩
        rcases List.mem_cons.mp hc with rfl | hc
        · simp at htrue
        · obtain ⟨before, m, rfl, hbefore⟩ := hstop ⟨c, hc, htrue⟩
          refine ⟨(n, false) :: before, m, rfl, fun c hc => ?_⟩
          rcases List.mem_cons.mp hc with rfl | hc
          · rfl
          · exact hbefore c hc

/-- The traversal of a trie of these keys. -/
theorem Tight.enumerates (h : Tight t K) (keepRootLocked : Bool)
    (visit : TrieNode ρ → δ → Bool × δ) (data : δ) : ∃ data' calls,
      t.traverse keepRootLocked (logging visit) (data, []) = .ok (data', calls) ∧
      Enumerates t K calls := by
  obtain ⟨data', calls, hrun, hpre, hall, hstop⟩ := visitAll_logging visit t.leaves data []
  have hkeys : visitedKeys calls = (calls.map Prod.fst).map TrieNode.suffix :=
    (List.map_map ..).symm
  have hseg : visitedKeys calls <+: t.keys := hkeys ▸ hpre.map TrieNode.suffix
  refine ⟨data', calls, ?_, fun c hc => ?_, ?_, t.keys, h.wf.keys_sorted, fun k => ?_, hseg,
    fun hf => ?_, hstop⟩
  · rw [traverse_spec h.wf, hrun]
    rfl
  · have hn : c.1 ∈ t.leaves := hpre.subset (List.mem_map_of_mem hc)
    obtain ⟨hv, v, hf⟩ := h.wf.leaf_value hn
    obtain ⟨p, a, ha, hl, hna⟩ := h.wf.mem_leaves.mp hn
    refine ⟨hna ▸ hl, v, hv.trans hf, ?_⟩
    rw [lookup_eq h.wf (h.wf.find_valid hf), hf]
  · exact h.wf.keys_sorted.sublist hseg.sublist
  · rw [h.wf.mem_keys, h.bound]
    exact exists_congr fun v => h.wf.find_eq_some
  · rw [hkeys, hall hf]
    rfl

/--
**`traverse` is an in-order enumeration with an early stop.**

After any insertions it calls any visit function on the leaves of the inserted keys, in
increasing order. It goes through all of them, or up to the first for which the function
returns true.
-/
theorem traverse_enumerates (ops : TrieValue ρ σ) {keySize : Nat} (h0 : 0 < keySize)
    (h1 : keySize ≤ 255) (entries : List (Key × ρ)) (hvalid : ∀ e ∈ entries, ValidKey keySize e.1)
    (s : σ) (keepRootLocked : Bool) (visit : TrieNode ρ → δ → Bool × δ) (data : δ) :
    ∃ t s' data' calls, (new keySize h0 h1).insertAll ops s entries = .ok (t, s') ∧
      t.traverse keepRootLocked (logging visit) (data, []) = .ok (data', calls) ∧
      Enumerates t (entries.map Prod.fst).toFinset calls := by
  obtain ⟨⟨t, s'⟩, hr, ht⟩ := insertAll_tight ops entries (new keySize h0 h1) ∅ s new_tight hvalid
  rw [Finset.union_empty] at ht
  obtain ⟨data', calls, hrun, hcalls⟩ := ht.enumerates keepRootLocked visit data
  exact ⟨t, s', data', calls, hr, hrun, hcalls⟩

/-- `"0a"`, `"01"` and `"00"`, with a function that counts and stops at the second call. -/
theorem traverse_enumerates_three :
    ∃ (t : HandleTrie Nat) (s' : Nat → Nat) (data' : Nat) (calls : List (VisitCall Nat)),
      (new 2 (by decide) (by decide)).insertAll counterValue (fun _ => 1)
        [([48, 97], 0), ([48, 49], 1), ([48, 48], 2)] = .ok (t, s') ∧
      t.traverse true (logging fun _ n => (decide (n = 1), n + 1)) (0, []) = .ok (data', calls) ∧
      Enumerates t ([([48, 97], 0), ([48, 49], 1), ([48, 48], 2)].map Prod.fst).toFinset calls :=
  traverse_enumerates counterValue (by decide) (by decide)
    [([48, 97], 0), ([48, 49], 1), ([48, 48], 2)] (by decide +kernel) _ true
    (fun _ n => (decide (n = 1), n + 1)) 0

end AttentionBroker.HandleTrie
