import AttentionBroker.Trie.Traverse

/-!
# `HandleTrie` refines a finite map

`MapState` is what the trie is for: a map from handles to value objects, next to the store
the objects live in. `Call` is a call of one of the two operations of the trie, and
`runCalls_refines_map` compares any sequence of calls on a new trie with the same calls on
an empty map.
-/

namespace AttentionBroker

open Infra

/-! ## The map -/

/-- A call on a trie or on a map. -/
inductive Call (ρ : Type) where
  | insert (key : Key) (value : ρ)
  | lookup (key : Key)

/-- The key a call is about. -/
def Call.key {ρ : Type} : Call ρ → Key
  | .insert key _ => key
  | .lookup key => key

/-- A map from handles to value objects, and the store of the objects. -/
structure MapState (ρ σ : Type) where
  map : Key → Option ρ
  store : σ

namespace MapState

variable {ρ σ : Type}

/-- No key bound. -/
def empty (s : σ) : MapState ρ σ := { map := fun _ => none, store := s }

/-- A key that is there merges and keeps its object, one that is not is bound. -/
def insert (ops : TrieValue ρ σ) (m : MapState ρ σ) (key : Key) (value : ρ) :
    ρ × MapState ρ σ :=
  match m.map key with
  | some v => (v, { m with store := ops.delete value (ops.merge v value m.store) })
  | none => (value, { m with map := Function.update m.map key (some value) })

/-- The object a call returns, and the map after it. -/
def call (ops : TrieValue ρ σ) (m : MapState ρ σ) : Call ρ → Option ρ × MapState ρ σ
  | .insert key value => (some (m.insert ops key value).1, (m.insert ops key value).2)
  | .lookup key => (m.map key, m)

/-- The objects a sequence of calls returns, and the map after it. -/
def run (ops : TrieValue ρ σ) : MapState ρ σ → List (Call ρ) → List (Option ρ) × MapState ρ σ
  | m, [] => ([], m)
  | m, c :: cs =>
    ((m.call ops c).1 :: (run ops (m.call ops c).2 cs).1, (run ops (m.call ops c).2 cs).2)

theorem insert_of_some {ops : TrieValue ρ σ} {m : MapState ρ σ} {key : Key} {v : ρ}
    (h : m.map key = some v) (value : ρ) :
    m.insert ops key value
      = (v, { m with store := ops.delete value (ops.merge v value m.store) }) := by
  unfold insert
  rw [h]

theorem insert_of_none {ops : TrieValue ρ σ} {m : MapState ρ σ} {key : Key}
    (h : m.map key = none) (value : ρ) :
    m.insert ops key value
      = (value, { m with map := Function.update m.map key (some value) }) := by
  unfold insert
  rw [h]

theorem call_keeps {ops : TrieValue ρ σ} {m : MapState ρ σ} {k : Key} {v : ρ}
    (h : m.map k = some v) (c : Call ρ) : (m.call ops c).2.map k = some v := by
  cases c with
  | lookup key => exact h
  | insert key value =>
    cases hk : m.map key with
    | some w =>
      rw [call, insert_of_some hk]
      exact h
    | none =>
      have hne : k ≠ key := fun he => by rw [he, hk] at h; simp at h
      rw [call, insert_of_none hk]
      simpa [hne] using h

/-- An object stays bound to its key for good. -/
theorem run_keeps {ops : TrieValue ρ σ} {k : Key} {v : ρ} : ∀ (cs : List (Call ρ))
    (m : MapState ρ σ), m.map k = some v → (m.run ops cs).2.map k = some v
  | [], _, h => h
  | c :: cs, m, h => run_keeps cs (m.call ops c).2 (call_keeps h c)

theorem run_append {ops : TrieValue ρ σ} : ∀ (cs ds : List (Call ρ)) (m : MapState ρ σ),
    (m.run ops (cs ++ ds)).2 = ((m.run ops cs).2.run ops ds).2
  | [], _, _ => rfl
  | c :: cs, ds, m => run_append cs ds (m.call ops c).2

end MapState

/-! ## The trie -/

namespace HandleTrie

variable {ρ σ δ : Type} {t t' : HandleTrie ρ}

/-- One call on the trie. -/
def call (ops : TrieValue ρ σ) (t : HandleTrie ρ) (s : σ) :
    Call ρ → Except Fault (Option ρ × HandleTrie ρ × σ)
  | .insert key value => do
    let (v, t, s) ← t.insert ops key value s
    .ok (some v, t, s)
  | .lookup key => do
    let o ← t.lookup key
    .ok (o, t, s)

/-- A sequence of calls on the trie. -/
def runCalls (ops : TrieValue ρ σ) (t : HandleTrie ρ) (s : σ) :
    List (Call ρ) → Except Fault (List (Option ρ) × HandleTrie ρ × σ)
  | [] => .ok ([], t, s)
  | c :: cs => do
    let (o, t, s) ← t.call ops s c
    let (os, t, s) ← runCalls ops t s cs
    .ok (o :: os, t, s)

/-- The trie stands for the map, on the handles of its size. -/
structure Refines (t : HandleTrie ρ) (ks : Nat) (map : Key → Option ρ) : Prop where
  wf : t.Wf
  keySize : t.keySize = ks
  find : ∀ k, ValidKey ks k → t.find k = map k

/-- **One call is simulated.** -/
theorem call_refines (ops : TrieValue ρ σ) {ks : Nat} {m : MapState ρ σ}
    (h : t.Refines ks m.map) {c : Call ρ} (hc : ValidKey ks c.key) :
    ∃ t', t.call ops m.store c = .ok ((m.call ops c).1, t', (m.call ops c).2.store) ∧
      t'.Refines ks (m.call ops c).2.map := by
  cases c with
  | lookup key =>
    change ValidKey ks key at hc
    refine ⟨t, ?_, h⟩
    unfold call
    simp only [bind, Except.bind]
    rw [lookup_eq h.wf (h.keySize.symm ▸ hc), h.find key hc]
    rfl
  | insert key value =>
    change ValidKey ks key at hc
    obtain ⟨t', hwf, hsize, hins, hfind⟩ :=
      insert_eq ops h.wf (h.keySize.symm ▸ hc) value m.store
    rw [h.find key hc] at hins hfind
    unfold call MapState.call
    simp only [bind, Except.bind]
    rw [hins]
    cases hk : m.map key with
    | some v =>
      rw [MapState.insert_of_some hk]
      refine ⟨t', rfl, hwf, hsize.trans h.keySize, fun k hv => ?_⟩
      rw [hfind k, hk]
      by_cases hkk : k = key
      · rw [if_pos hkk, hkk, hk]; rfl
      · rw [if_neg hkk, h.find k hv]
    | none =>
      rw [MapState.insert_of_none hk]
      refine ⟨t', rfl, hwf, hsize.trans h.keySize, fun k hv => ?_⟩
      show t'.find k = Function.update m.map key (some value) k
      rw [hfind k, hk]
      by_cases hkk : k = key
      · rw [if_pos hkk, hkk, Function.update_self]; rfl
      · rw [if_neg hkk, Function.update_of_ne hkk, h.find k hv]

theorem run_refines (ops : TrieValue ρ σ) {ks : Nat} : ∀ (cs : List (Call ρ))
    (t : HandleTrie ρ) (m : MapState ρ σ), t.Refines ks m.map →
    (∀ c ∈ cs, ValidKey ks c.key) →
    ∃ t', t.runCalls ops m.store cs = .ok ((m.run ops cs).1, t', (m.run ops cs).2.store) ∧
      t'.Refines ks (m.run ops cs).2.map
  | [], t, m, h, _ => ⟨t, rfl, h⟩
  | c :: cs, t, m, h, hcs => by
    obtain ⟨t₁, hcall, h₁⟩ := call_refines ops h (hcs c List.mem_cons_self)
    obtain ⟨t₂, hrun, h₂⟩ := run_refines ops cs t₁ (m.call ops c).2 h₁
      fun d hd => hcs d (List.mem_cons_of_mem _ hd)
    refine ⟨t₂, ?_, h₂⟩
    unfold runCalls
    simp only [bind, Except.bind]
    rw [hcall]
    simp only []
    rw [hrun]
    rfl

/-- A trie that calls on handles of its size lead to from a new one. -/
def Reachable (ops : TrieValue ρ σ) (t : HandleTrie ρ) : Prop :=
  ∃ (keySize : Nat) (h0 : 0 < keySize) (h1 : keySize ≤ 255) (calls : List (Call ρ)) (s s' : σ)
    (os : List (Option ρ)), (∀ c ∈ calls, ValidKey keySize c.key) ∧
      (new keySize h0 h1).runCalls ops s calls = .ok (os, t, s')

theorem Reachable.wf {ops : TrieValue ρ σ} (h : t.Reachable ops) : t.Wf := by
  obtain ⟨keySize, h0, h1, calls, s, s', os, hkeys, hrun⟩ := h
  have hnew : (new keySize h0 h1 : HandleTrie ρ).Refines keySize
      (MapState.empty s).map := ⟨new_wf, rfl, fun k _ => find_new k⟩
  obtain ⟨t₁, hrun₁, href⟩ := run_refines ops calls _ (MapState.empty s) hnew hkeys
  cases hrun.symm.trans hrun₁
  exact href.wf

/--
**The trie behaves as a finite map.**

Any calls on handles of the size of a new trie succeed and return what the map returns,
with the same effect on the value objects. Afterwards `lookup` reads the map, and every
object bound on the way is still the one bound to its key.
-/
theorem runCalls_refines_map (ops : TrieValue ρ σ) {keySize : Nat} (h0 : 0 < keySize)
    (h1 : keySize ≤ 255) (calls : List (Call ρ)) (hkeys : ∀ c ∈ calls, ValidKey keySize c.key)
    (s : σ) :
    ∃ t₀ t : HandleTrie ρ, construct keySize = .ok t₀ ∧
      t₀.runCalls ops s calls = .ok (((MapState.empty s).run ops calls).1, t,
        ((MapState.empty s).run ops calls).2.store) ∧
      (∀ k, ValidKey keySize k →
        t.lookup k = .ok (((MapState.empty s).run ops calls).2.map k)) ∧
      ∀ before after, calls = before ++ after → ∀ k v,
        ((MapState.empty s).run ops before).2.map k = some v →
        ((MapState.empty s).run ops calls).2.map k = some v := by
  have hnew : (new keySize h0 h1 : HandleTrie ρ).Refines keySize
      (MapState.empty s).map := ⟨new_wf, rfl, fun k _ => find_new k⟩
  obtain ⟨t, hrun, href⟩ := run_refines ops calls _ (MapState.empty s) hnew hkeys
  refine ⟨new keySize h0 h1, t, ?_, hrun, fun k hk => ?_, ?_⟩
  · unfold construct
    rw [dif_neg (by omega)]
  · have hk' : ValidKey t.keySize k := by rw [href.keySize]; exact hk
    rw [lookup_eq href.wf hk', href.find k hk]
  · rintro before after rfl k v hv
    rw [MapState.run_append]
    exact MapState.run_keeps after _ hv

/-- Counters as value objects: `merge` adds the counter of the new object. -/
def counterValue : TrieValue Nat (Nat → Nat) where
  merge v w s := Function.update s v (s v + s w)
  delete _ s := s

/-- `"00"`, `"01"` and `"00"` again: a split and a merge. -/
theorem runCalls_refines_map_split :
    ∃ t₀ t : HandleTrie Nat, construct 2 = .ok t₀ ∧
      t₀.runCalls counterValue (fun _ => 1)
          [.insert [48, 48] 0, .insert [48, 49] 1, .insert [48, 48] 2, .lookup [48, 49]]
        = .ok (((MapState.empty fun _ => 1).run counterValue
            [.insert [48, 48] 0, .insert [48, 49] 1, .insert [48, 48] 2, .lookup [48, 49]]).1, t,
          ((MapState.empty fun _ => 1).run counterValue
            [.insert [48, 48] 0, .insert [48, 49] 1, .insert [48, 48] 2,
              .lookup [48, 49]]).2.store) ∧
      (∀ k, ValidKey 2 k → t.lookup k = .ok (((MapState.empty fun _ => 1).run counterValue
        [.insert [48, 48] 0, .insert [48, 49] 1, .insert [48, 48] 2, .lookup [48, 49]]).2.map k)) ∧
      ∀ before after, [Call.insert [48, 48] 0, .insert [48, 49] 1, .insert [48, 48] 2,
          .lookup [48, 49]] = before ++ after → ∀ k v,
        ((MapState.empty fun _ => 1).run counterValue before).2.map k = some v →
        ((MapState.empty fun _ => 1).run counterValue
          [.insert [48, 48] 0, .insert [48, 49] 1, .insert [48, 48] 2,
            .lookup [48, 49]]).2.map k = some v :=
  runCalls_refines_map counterValue (by decide) (by decide) _ (by decide +kernel) _

end HandleTrie

end AttentionBroker
