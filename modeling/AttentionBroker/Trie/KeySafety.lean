import AttentionBroker.Trie.Canonical

/-!
# Which keys are safe to insert

`insert` takes any key of the right length. It is safe exactly when the key does not run past
its end in the trie it meets (`RunsPast`), or when its length is 255: then `keyCursor` wraps
before a byte behind the terminator is read.

`insertAll_grown` is the invariant of any sequence of insertions that completed.
-/

namespace AttentionBroker.HandleTrie

open Infra

variable {ρ σ : Type} {t t' : HandleTrie ρ} {key : Key}

/-- The invariant of the tries that insertions lead to: within the keys unless these have 255 bytes. -/
def Grown (t : HandleTrie ρ) : Prop := t.Loose t.keySize (t.keySize ≠ 255)

theorem Grown.insert {ops : TrieValue ρ σ} {value : ρ} {s : σ} {r : ρ × HandleTrie ρ × σ}
    (g : t.Grown) (hkey : key.length = t.keySize) (hrun : t.insert ops key value s = .ok r) :
    r.2.1.keySize = t.keySize ∧ r.2.1.Grown := by
  have hends := insert_ends ops g (em' (t.keySize = 255)) hkey value s
  rw [hrun] at hends
  obtain ⟨hsize, hweak, hret⟩ := hends
  refine ⟨hsize, ?_⟩
  unfold Grown
  rw [hsize]
  by_cases hks : t.keySize = 255
  · exact hweak.weaken fun h => h hks
  · exact ((hret hks).loose (g.weaken fun _ => hks) hks).weaken fun _ => trivial

/-- **Insertions that completed keep the invariant.** -/
theorem insertAll_grown {ops : TrieValue ρ σ} {entries : List (Key × ρ)} {s s' : σ} (g : t.Grown)
    (hkeys : ∀ e ∈ entries, e.1.length = t.keySize)
    (hrun : t.insertAll ops s entries = .ok (t', s')) : t'.keySize = t.keySize ∧ t'.Grown := by
  refine insertAll_invariant (P := fun _ t₁ => t₁.keySize = t.keySize ∧ t₁.Grown) entries ?_
    entries [] t t' s s' (fun e he => he) ⟨rfl, g⟩ hrun
  rintro es key value t₁ s₁ r hmem - ⟨hsize, g₁⟩ hins
  obtain ⟨hsize', g'⟩ := g₁.insert ((hkeys _ hmem).trans hsize.symm) hins
  exact ⟨hsize'.trans hsize, g'⟩

theorem new_grown {ks : Nat} {h0 : 0 < ks} {h1 : ks ≤ 255} :
    (new ks h0 h1 : HandleTrie ρ).Grown :=
  Loose.weaken new_wf.loose fun _ => trivial

/-- A call that merges or adds a leaf did not run past the end of its key. -/
theorem Returns.not_runsPast {ops : TrieValue ρ σ} {value : ρ} {s : σ} {r : ρ × HandleTrie ρ × σ}
    (hr : Returns ops t key value s r) (l : t.Loose t.keySize True) (hks : t.keySize ≠ 255) :
    ¬ t.RunsPast key := by
  rintro ⟨p, b, hp, hb, hlb, hne, hrest⟩
  cases hr with
  | merged hq ha hl hsame =>
    obtain rfl := l.leaf_on_path hb hlb hp ha hl hq
    obtain rfl := Option.some.inj (hb.symm.trans ha)
    exact hne hsame
  | added _ _ _ _ differs => exact differs p b hp hb hlb hrest
  | wrapped hsize => exact hks hsize

/--
**When `insert` is safe.**

In any trie that insertions of keys of the right length have led to, one more insertion
terminates without a read behind the terminator of a string if and only if the keys have 255
bytes or the key does not run past its end. Otherwise it ends in such a read.
-/
theorem insert_safe_iff (ops : TrieValue ρ σ) {keySize : Nat} (h0 : 0 < keySize)
    (h1 : keySize ≤ 255) (entries : List (Key × ρ)) (hkeys : ∀ e ∈ entries, e.1.length = keySize)
    (s s' : σ) (hrun : (new keySize h0 h1).insertAll ops s entries = .ok (t, s'))
    (hkey : key.length = keySize) (value : ρ) :
    ((∃ r, t.insert ops key value s' = .ok r) ↔ keySize = 255 ∨ ¬ t.RunsPast key) ∧
      ((¬ ∃ r, t.insert ops key value s' = .ok r) →
        t.insert ops key value s' = .error .outOfBounds) := by
  obtain ⟨hsize, g⟩ := insertAll_grown new_grown hkeys hrun
  have hsize : t.keySize = keySize := hsize
  have hends := insert_ends ops g (em' (t.keySize = 255)) (hkey.trans hsize.symm) value s'
  rcases hins : t.insert ops key value s' with e | r
  · rw [hins] at hends
    obtain ⟨rfl, hlt, hruns⟩ := hends
    refine ⟨⟨fun ⟨r, hr⟩ => (by cases hr), ?_⟩, fun _ => rfl⟩
    rintro (hks | hnot)
    · omega
    · exact absurd hruns hnot
  · rw [hins] at hends
    refine ⟨⟨fun _ => ?_, fun _ => ⟨r, rfl⟩⟩, fun hno => absurd ⟨r, rfl⟩ hno⟩
    by_cases hks : keySize = 255
    · exact Or.inl hks
    · have hks' : t.keySize ≠ 255 := hsize ▸ hks
      exact Or.inr ((hends.2.2 hks').not_runsPast (g.weaken fun _ => hks') hks')

/-- `"aa"`, then `"bb"`. -/
theorem insert_safe_iff_two :
    ∃ (t : HandleTrie Nat) (s' : Nat → Nat),
      (new 2 (by decide) (by decide)).insertAll counterValue (fun _ => 1) [([97, 97], 0)]
        = .ok (t, s') ∧
      ((∃ r, t.insert counterValue [98, 98] 1 s' = .ok r) ↔ 2 = 255 ∨ ¬ t.RunsPast [98, 98]) ∧
      ((¬ ∃ r, t.insert counterValue [98, 98] 1 s' = .ok r) →
        t.insert counterValue [98, 98] 1 s' = .error .outOfBounds) :=
  ⟨_, _, rfl, insert_safe_iff counterValue (by decide) (by decide) [([97, 97], 0)] (by decide)
    (fun _ => 1) _ rfl rfl 1⟩

/-- `"aa"`, then `"Aa"`: the two keys select the same slots and end in the same byte. -/
theorem insert_reads_past :
    ∃ (t : HandleTrie Nat) (s' : Nat → Nat),
      (new 2 (by decide) (by decide)).insertAll counterValue (fun _ => 1) [([97, 97], 0)]
        = .ok (t, s') ∧
      ([65, 97] : Key).length = t.keySize ∧
      t.insert counterValue [65, 97] 1 s' = .error .outOfBounds :=
  ⟨_, _, rfl, rfl, rfl⟩

end AttentionBroker.HandleTrie
