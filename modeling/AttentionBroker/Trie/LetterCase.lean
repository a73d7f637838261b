import AttentionBroker.Trie.KeySafety

/-!
# Keys in either letter case

`TLB` gives both cases of a letter one slot. `insert` compares a key with the leaf on its path
from the byte that led to the leaf on, `lookup` only from the byte after it: a letter above
that point is not compared by either, and the last one only by `insert`.

`keysAgree_iff` says for which sets of keys the two operations still agree on which keys are
equal: those in which no key has a letter before it has parted from the other keys.
-/

namespace AttentionBroker

open Infra

/-! ## Symbols and digits -/

/-- One of the symbols `TLB_INIT` lists: `0-9`, `a-f`, `A-F`. -/
def IsSymbol (b : UInt8) : Prop := IsHex b ∨ (0x41 ≤ b.toNat ∧ b.toNat ≤ 0x46)

instance : DecidablePred IsSymbol := fun _ => inferInstanceAs (Decidable (_ ∨ _))

/-- One of the symbols `0-9`. -/
def IsDigit (b : UInt8) : Prop := 0x30 ≤ b.toNat ∧ b.toNat ≤ 0x39

instance : DecidablePred IsDigit := fun _ => inferInstanceAs (Decidable (_ ∧ _))

/-- The letter in the other case. -/
def otherCase (b : UInt8) : UInt8 := if 0x61 ≤ b.toNat then b - 0x20 else b + 0x20

/-- A key of this size over the symbols `TLB_INIT` lists. -/
def SymbolKey (keySize : Nat) (k : Key) : Prop := k.length = keySize ∧ ∀ b ∈ k, IsSymbol b

theorem TLB_symbol {b : UInt8} (h : IsSymbol b) : ((TLB b).val : Nat)
    = if b.toNat ≤ 0x39 then b.toNat - 0x30
      else if 0x61 ≤ b.toNat then b.toNat - 0x61 + 10 else b.toNat - 0x41 + 10 := by
  unfold TLB
  rcases h with (h | h) | h
  · rw [if_pos h, if_pos h.2]
    exact Nat.mod_eq_of_lt (by omega)
  · rw [if_neg (by omega), if_pos h, if_neg (by omega), if_pos h.1]
    exact Nat.mod_eq_of_lt (by omega)
  · rw [if_neg (by omega), if_neg (by omega), if_pos h, if_neg (by omega), if_neg (by omega)]
    exact Nat.mod_eq_of_lt (by omega)

/-- A digit shares its slot with no other symbol. -/
theorem TLB_digit_inj {a b : UInt8} (ha : IsDigit a) (hb : IsSymbol b) (h : TLB a = TLB b) :
    a = b := by
  have h' : ((TLB a).val : Nat) = (TLB b).val := by rw [h]
  rw [TLB_symbol (.inl (.inl ha)), TLB_symbol hb, if_pos ha.2] at h'
  refine UInt8.toNat_inj.mp ?_
  unfold IsDigit at ha
  rcases hb with (hb | hb) | hb
  · rw [if_pos hb.2] at h'
    omega
  · rw [if_neg (by omega), if_pos hb.1] at h'
    omega
  · rw [if_neg (by omega), if_neg (by omega)] at h'
    omega

/-- A letter shares its slot with the letter in the other case. -/
theorem otherCase_spec {b : UInt8} (h : IsSymbol b) (hd : ¬ IsDigit b) :
    IsSymbol (otherCase b) ∧ TLB (otherCase b) = TLB b ∧ otherCase b ≠ b := by
  have hall : ∀ n : Fin 256, IsSymbol (UInt8.ofFin n) → ¬ IsDigit (UInt8.ofFin n) →
      IsSymbol (otherCase (UInt8.ofFin n)) ∧
        TLB (otherCase (UInt8.ofFin n)) = TLB (UInt8.ofFin n) ∧
        otherCase (UInt8.ofFin n) ≠ UInt8.ofFin n := by decide +kernel
  exact hall b.toFin h hd

namespace HandleTrie

variable {ρ σ : Type} {t t' : HandleTrie ρ} {p q : List Slot} {a b : Nat} {key k k' : Key}
  {entries es : List (Key × ρ)} {ks : Nat}

/--
`insert` and `lookup` agree with the insertions made on which keys are there.

`lookup` finds exactly the keys inserted, and a value inserted under the key. A further `insert`
returns another object than the one passed, the one it has merged into, for exactly these keys.
-/
def KeysAgree (ops : TrieValue ρ σ) (entries : List (Key × ρ)) (t : HandleTrie ρ) (s : σ) : Prop :=
  ∀ k, SymbolKey t.keySize k → ∃ o, t.lookup k = .ok o ∧
    (o ≠ none ↔ k ∈ entries.map Prod.fst) ∧ (∀ v, o = some v → (k, v) ∈ entries) ∧
    ∀ v, (∀ e ∈ entries, e.2 ≠ v) →
      ((∃ w t' s', t.insert ops k v s = .ok (w, t', s') ∧ w ≠ v) ↔ k ∈ entries.map Prod.fst)

/--
No key has a letter at its first symbol, or up to the symbol after the longest path that it
shares with another key.
-/
def NoSharedLetter (keys : List Key) : Prop :=
  ∀ k ∈ keys, ∀ i b, k[i]? = some b →
    (i = 0 ∨ ∃ k' ∈ keys, k' ≠ k ∧ i ≤ commonPrefix (code k) (code k')) → IsDigit b

/-! ## Two keys of one path -/

/-- A loop that finds something at a leaf finds the value of the leaf. -/
theorem lookup_loop_leaf {n : Nat} {kc : UInt8} {v : ρ} (hl : 0 < (t.node a).suffixStart)
    (h : loop .diverges (lookupBody t k) (n + 1) ⟨some a, kc⟩ = .ok (some v)) :
    (t.node a).value = some v := by
  rw [loop] at h
  unfold lookupBody at h
  simp only [if_pos hl, bind, Except.bind] at h
  rcases hm : matchFrom k (t.node a).suffix kc.toNat (k.length - kc.toNat) with e | found
  · rw [hm] at h
    cases h
  · rw [hm] at h
    cases found with
    | false => cases h
    | true =>
      simp only [if_true, Except.ok.injEq] at h
      exact h

/-- A loop at an internal node goes on in the slot of the symbol read. -/
theorem lookup_loop_inner {n : Nat} {kc : UInt8} {o : Option ρ} (hin : ¬ 0 < (t.node a).suffixStart)
    (h : loop .diverges (lookupBody t k) (n + 1) ⟨some a, kc⟩ = .ok o) :
    ∃ b, charAt k kc.toNat = .ok b ∧
      loop .diverges (lookupBody t k) n ⟨(t.node a).children (TLB b), kc + 1⟩ = .ok o := by
  rcases hb : charAt k kc.toNat with e | b
  · have hbody : lookupBody t k ⟨some a, kc⟩ = .error e := by
      unfold lookupBody
      simp only [if_neg hin, bind, Except.bind, hb]
    rw [loop, hbody] at h
    cases h
  · have hbody : lookupBody t k ⟨some a, kc⟩
        = .ok (.inl ⟨(t.node a).children (TLB b), kc + 1⟩) := by
      unfold lookupBody
      simp only [if_neg hin, bind, Except.bind, hb]
    rw [loop, hbody] at h
    exact ⟨b, rfl, h⟩

/-- Keys of one path select the same slots. -/
theorem TLB_charAt {b b' : UInt8} {i : Nat} (hlen : k.length = k'.length)
    (hcode : code k = code k') (hb : charAt k i = .ok b) (hb' : charAt k' i = .ok b') :
    TLB b = TLB b' := by
  have hi : i ≤ k.length := by
    by_contra hi
    rw [charAt_past (by omega)] at hb
    cases hb
  rw [charAt_le hi] at hb
  rw [charAt_le (hlen ▸ hi)] at hb'
  cases hb
  cases hb'
  have hslot := congrArg (fun c => c.getD i (TLB 0)) hcode
  simpa [code, List.getD_eq_getElem?_getD, Option.getD_map] using hslot

theorem lookup_loop_same_code (hlen : k.length = k'.length) (hcode : code k = code k') :
    ∀ (n : Nat) (st : LookupState) (v v' : ρ),
      loop .diverges (lookupBody t k) n st = .ok (some v) →
      loop .diverges (lookupBody t k') n st = .ok (some v') → v = v' := by
  intro n
  induction n with
  | zero => intro st v v' h; cases h
  | succ n ih =>
    intro st v v' h h'
    obtain ⟨cursor, kc⟩ := st
    cases cursor with
    | none => rw [loop] at h; cases h
    | some a =>
      by_cases hl : 0 < (t.node a).suffixStart
      · exact Option.some.inj ((lookup_loop_leaf hl h).symm.trans (lookup_loop_leaf hl h'))
      · obtain ⟨b, hb, h⟩ := lookup_loop_inner hl h
        obtain ⟨b', hb', h'⟩ := lookup_loop_inner hl h'
        rw [← TLB_charAt hlen hcode hb hb'] at h'
        exact ih _ v v' h h'

/-- **Two keys of one path find the same value**, if both find one. This holds of any trie. -/
theorem lookup_same_code {v v' : ρ} (hlen : k.length = k'.length) (hcode : code k = code k')
    (h : t.lookup k = .ok (some v)) (h' : t.lookup k' = .ok (some v')) : v = v' := by
  unfold lookup checkSize at h h'
  rw [← hlen] at h'
  by_cases hsize : k.length ≠ t.keySize
  · rw [if_pos hsize] at h
    cases h
  · rw [if_neg hsize] at h h'
    exact lookup_loop_same_code hlen hcode _ _ v v' h h'

/-! ## The keys of a trie -/

/-- What insertions that did not run past their keys lead to. -/
structure Fed (ks : Nat) (es : List (Key × ρ)) (t : HandleTrie ρ) : Prop where
  keySize : t.keySize = ks
  loose : t.Loose t.keySize True
  sound : ∀ k v, t.Binds k v → (k, v) ∈ es

theorem new_fed {h0 : 0 < ks} {h1 : ks ≤ 255} : Fed ks [] (new ks h0 h1 : HandleTrie ρ) where
  keySize := rfl
  loose := new_wf.loose
  sound := by
    rintro k v ⟨p, a, ha, hl, -⟩
    obtain ⟨rfl, rfl⟩ := nodeAt_new ha
    exact absurd hl new_wf.root_inner

namespace Fed

/-- The key of a leaf was inserted. -/
theorem mem_of_leaf (h : Fed ks es t) (ha : t.nodeAt q = some a)
    (hl : 0 < (t.node a).suffixStart) : (t.node a).suffix ∈ es.map Prod.fst := by
  obtain ⟨v, hv⟩ := (h.loose.fits q a ha).value hl
  exact List.mem_map_of_mem (h.sound _ v ⟨q, a, ha, hl, rfl, hv⟩)

/-- A key that runs past its end has the path of a key inserted before. -/
theorem code_eq_of_runsPast (h : Fed ks es t) (hruns : t.RunsPast key) :
    ∃ k ∈ es.map Prod.fst, k ≠ key ∧ code k = code key := by
  obtain ⟨q, a, hq, ha, hl, hne, hrest⟩ := hruns
  refine ⟨_, h.mem_of_leaf ha hl, fun he => hne (by rw [he]), ?_⟩
  have hpath := List.prefix_iff_eq_take.mp hq
  have hpath' := List.prefix_iff_eq_take.mp ((h.loose.fits q a ha).path hl trivial)
  rw [← List.take_append_drop q.length (code key),
    ← List.take_append_drop q.length (code (t.node a).suffix), ← hpath, ← hpath']
  unfold code
  rw [← List.map_drop, ← List.map_drop, hrest]

/-- One more key that does not run past its end. -/
theorem insert {ops : TrieValue ρ σ} {value : ρ} {s : σ} {r : ρ × HandleTrie ρ × σ}
    (h : Fed ks es t) (hkey : key.length = ks) (hnot : ¬ t.RunsPast key)
    (hrun : t.insert ops key value s = .ok r) :
    Fed ks (es ++ [(key, value)]) r.2.1 ∧ Returns ops t key value s r := by
  have hends := insert_ends ops h.loose (.inl trivial) (hkey.trans h.keySize.symm) value s
  rw [hrun] at hends
  obtain ⟨hsize, -, hret⟩ := hends
  have hret := hret trivial
  refine ⟨?_, hret⟩
  cases hret with
  | merged => exact ⟨h.keySize, h.loose, fun k v hb => List.mem_append_left _ (h.sound k v hb)⟩
  | added stored loose _ binds =>
    refine ⟨hsize.trans h.keySize, hsize ▸ loose, fun k v hb => ?_⟩
    rcases (binds k v).mp hb with hb | ⟨-, rfl, rfl⟩
    · exact List.mem_append_left _ (h.sound k v hb)
    · exact List.mem_append_right _ (List.mem_singleton_self _)
  | wrapped _ hruns => exact absurd hruns hnot

end Fed

/-! ## No letter is shared: the operations agree -/

/-- Two symbols in one slot, one of them a digit, are the same. -/
theorem take_eq_of_digits (hk : ∀ b ∈ k, IsSymbol b) {n : Nat}
    (hd : ∀ i b, i < n → k'[i]? = some b → IsDigit b)
    (hcode : (code k').take n = (code k).take n) : k'.take n = k.take n := by
  refine List.ext_getElem? fun i => ?_
  by_cases hi : i < n
  · have hslot : (k'[i]?).map TLB = (k[i]?).map TLB := by
      have h := congrArg (fun l => l[i]?) hcode
      simpa [code, List.getElem?_take, hi] using h
    rw [List.getElem?_take, List.getElem?_take, if_pos hi, if_pos hi]
    cases hb : k[i]? with
    | none => rwa [hb, Option.map_none, Option.map_eq_none_iff] at hslot
    | some b =>
      rw [hb, Option.map_some, Option.map_eq_some_iff] at hslot
      obtain ⟨b', hb', hslot⟩ := hslot
      rw [hb', TLB_digit_inj (hd i b' hi hb') (hk b (List.mem_of_getElem? hb)) hslot]
  · rw [List.getElem?_take, List.getElem?_take, if_neg hi, if_neg hi]

/-- A trie of keys without shared letters, in which every internal node is needed. -/
structure Parted (ks : Nat) (es : List (Key × ρ)) (t : HandleTrie ρ) : Prop extends Fed ks es t where
  bound : ∀ k ∈ es.map Prod.fst, ∃ v, t.Binds k v
  shared : ∀ p a, t.nodeAt p = some a → ¬ 0 < (t.node a).suffixStart → p ≠ [] →
    ∃ k ∈ es.map Prod.fst, ∃ k' ∈ es.map Prod.fst, k ≠ k' ∧ p <+: code k ∧ p <+: code k'

namespace Parted

variable {all : List (Key × ρ)}

/-- The part of a key that leads to its leaf has only digits. -/
theorem digit_above (h : Parted ks es t) (hsub : ∀ e ∈ es, e ∈ all)
    (hall : NoSharedLetter (all.map Prod.fst)) (ha : t.nodeAt q = some a)
    (hl : 0 < (t.node a).suffixStart) {i : Nat} {b : UInt8} (hi : i < q.length)
    (hb : (t.node a).suffix[i]? = some b) : IsDigit b := by
  have hmem : ∀ k ∈ es.map Prod.fst, k ∈ all.map Prod.fst := fun k hk => by
    obtain ⟨e, he, rfl⟩ := List.mem_map.mp hk
    exact List.mem_map_of_mem (hsub e he)
  refine hall _ (hmem _ (h.mem_of_leaf ha hl)) i b hb ?_
  by_cases hi0 : i = 0
  · exact Or.inl hi0
  · refine Or.inr ?_
    rcases List.eq_nil_or_concat q with rfl | ⟨p, c, rfl⟩
    · exact absurd hi (by simp)
    · rw [List.concat_eq_append] at ha hi
      rw [List.length_append, List.length_singleton] at hi
      have hpath := (h.loose.fits _ a ha).path hl trivial
      obtain ⟨x, hx, hkid⟩ := walk_prefix ha
      have hkid' : t.kids x c = some a := by simpa [walk_cons] using hkid
      -- the node above is shared by two keys, and one of them is another one
      have hp : p ≠ [] := fun hp => by
        rw [hp] at hi
        exact hi0 (by simpa using hi)
      obtain ⟨k₁, hk₁, k₂, hk₂, hne, hp₁, hp₂⟩ :=
        h.shared p x hx (h.loose.inner_of_kid hx hkid') hp
      have hpre : p <+: code (t.node a).suffix := (List.prefix_append p [c]).trans hpath
      have hother : ∃ k' ∈ es.map Prod.fst, k' ≠ (t.node a).suffix ∧ p <+: code k' := by
        by_cases h₁ : k₁ = (t.node a).suffix
        · exact ⟨k₂, hk₂, fun h₂ => hne (h₁.trans h₂.symm), hp₂⟩
        · exact ⟨k₁, hk₁, h₁, hp₁⟩
      obtain ⟨k', hk', hne', hp'⟩ := hother
      refine ⟨k', hmem k' hk', hne', ?_⟩
      have hcommon : p.length ≤ commonPrefix (code (t.node a).suffix) (code k') := by
        rw [le_commonPrefix_iff, ← List.prefix_iff_eq_take.mp hpre,
          ← List.prefix_iff_eq_take.mp hp']
        exact ⟨hpre.length_le, hp'.length_le, rfl⟩
      omega

/-- A leaf on the path of a key has the key down to its place. -/
theorem take_eq (h : Parted ks es t) (hsub : ∀ e ∈ es, e ∈ all)
    (hall : NoSharedLetter (all.map Prod.fst)) (hk : SymbolKey ks k) (hq : q <+: code k)
    (ha : t.nodeAt q = some a) (hl : 0 < (t.node a).suffixStart) :
    k.take q.length = (t.node a).suffix.take q.length := by
  have hq' := (h.loose.fits q a ha).path hl trivial
  refine (take_eq_of_digits hk.2 (fun i b hi hb => h.digit_above hsub hall ha hl hi hb) ?_).symm
  rw [← List.prefix_iff_eq_take.mp hq, ← List.prefix_iff_eq_take.mp hq']

theorem not_runsPast (h : Parted ks es t) (hsub : ∀ e ∈ es, e ∈ all)
    (hall : NoSharedLetter (all.map Prod.fst)) (hk : SymbolKey ks k) : ¬ t.RunsPast k := by
  rintro ⟨q, a, hq, ha, hl, hne, hrest⟩
  refine hne ?_
  rw [(drop_eq_iff (h.take_eq hsub hall hk hq ha hl)).mp hrest]

/-- What `lookup` finds is what is bound. -/
theorem yields_iff (h : Parted ks es t) (hsub : ∀ e ∈ es, e ∈ all)
    (hall : NoSharedLetter (all.map Prod.fst)) (hk : SymbolKey ks k) {v : ρ} :
    t.Yields k v ↔ t.Binds k v := by
  constructor
  · rintro ⟨q, a, hq, ha, hl, hrest, hv⟩
    exact ⟨q, a, ha, hl, (drop_eq_iff (h.take_eq hsub hall hk hq ha hl)).mp hrest, hv⟩
  · rintro ⟨q, a, ha, hl, rfl, hv⟩
    exact ⟨q, a, (h.loose.fits q a ha).path hl trivial, ha, hl, rfl, hv⟩

/-- The leaf a call merges into is the one of the key. -/
theorem suffix_of_merge (h : Parted ks es t) (hsub : ∀ e ∈ es, e ∈ all)
    (hall : NoSharedLetter (all.map Prod.fst)) (hk : SymbolKey ks k) (hq : q <+: code k)
    (ha : t.nodeAt q = some a) (hl : 0 < (t.node a).suffixStart)
    (hsame : k.drop (q.length - 1) = (t.node a).suffix.drop (q.length - 1)) :
    (t.node a).suffix = k := by
  have htake := congrArg (List.take (q.length - 1)) (h.take_eq hsub hall hk hq ha hl)
  rw [List.take_take, List.take_take, Nat.min_eq_left (Nat.sub_le _ _)] at htake
  exact (drop_eq_iff htake).mp hsame

/-- No leaf is lost in a split of two keys that are both among those without shared letters. -/
theorem not_loses (h : Parted ks es t) (hsub : ∀ e ∈ es, e ∈ all)
    (hall : NoSharedLetter (all.map Prod.fst)) (hk : SymbolKey ks k)
    (hmem : k ∈ all.map Prod.fst) : ¬ Loses t t' k := by
  rintro ⟨q, a, i, -, ha, hl, -, hi, hne, hcode, -⟩
  have hmem' : (t.node a).suffix ∈ all.map Prod.fst := by
    obtain ⟨e, he, hek⟩ := List.mem_map.mp (h.mem_of_leaf ha hl)
    exact hek ▸ List.mem_map_of_mem (hsub e he)
  have hlen : (t.node a).suffix.length = k.length :=
    ((h.loose.fits q a ha).size hl).trans (h.keySize.trans hk.1.symm)
  have hcommon : i + 1 ≤ commonPrefix (code (t.node a).suffix) (code k) := by
    rw [le_commonPrefix_iff, code_length, code_length]
    exact ⟨by omega, by omega, hcode.symm⟩
  have htake : (t.node a).suffix.take (i + 1) = k.take (i + 1) := by
    refine take_eq_of_digits hk.2 (fun j b hj hb => ?_) hcode.symm
    exact hall _ hmem' j b hb (Or.inr ⟨k, hmem, fun he => hne (by rw [he]), by omega⟩)
  refine hne ?_
  have hi' := congrArg (fun s => s.getD i 0) htake
  simpa [List.getD_eq_getElem?_getD, List.getElem?_take] using hi'.symm

/-- **One more key without shared letters.** -/
theorem insert {ops : TrieValue ρ σ} {value : ρ} {s : σ} {r : ρ × HandleTrie ρ × σ}
    (h : Parted ks es t) (hsub : ∀ e ∈ es, e ∈ all) (hall : NoSharedLetter (all.map Prod.fst))
    (hkey : SymbolKey ks key) (hmem : (key, value) ∈ all)
    (hrun : t.insert ops key value s = .ok r) : Parted ks (es ++ [(key, value)]) r.2.1 := by
  obtain ⟨hfed, hret⟩ := h.toFed.insert hkey.1 (h.not_runsPast hsub hall hkey) hrun
  have hleft : ∀ k ∈ es.map Prod.fst, k ∈ (es ++ [(key, value)]).map Prod.fst := fun k hk => by
    rw [List.map_append]
    exact List.mem_append_left _ hk
  have hself : key ∈ (es ++ [(key, value)]).map Prod.fst := by simp
  have hcases : ∀ k ∈ (es ++ [(key, value)]).map Prod.fst, k ∈ es.map Prod.fst ∨ k = key := by
    simp
  cases hret with
  | merged hq ha hl hsame hv =>
    rename_i q a v
    have hsuffix := h.suffix_of_merge hsub hall hkey hq ha hl hsame
    refine ⟨hfed, fun k hk => ?_, fun p x hx hin hp => ?_⟩
    · rcases hcases k hk with hk | rfl
      · exact h.bound k hk
      · exact ⟨v, q, a, ha, hl, hsuffix, hv⟩
    · obtain ⟨k, hk, k', hk', hne, hpk, hpk'⟩ := h.shared p x hx hin hp
      exact ⟨k, hleft k hk, k', hleft k' hk', hne, hpk, hpk'⟩
  | added stored loose evolves binds differs lost =>
    have hstored : stored := by
      by_contra hn
      exact h.not_loses hsub hall hkey (List.mem_map_of_mem hmem) (lost hn)
    refine ⟨hfed, fun k hk => ?_, fun p x hx hin hp => ?_⟩
    · rcases hcases k hk with hk | rfl
      · obtain ⟨v, hv⟩ := h.bound k hk
        exact ⟨v, evolves.binds hv⟩
      · exact ⟨value, (binds _ value).mpr (Or.inr ⟨hstored, rfl, rfl⟩)⟩
    · rcases evolves.fresh p x hx hin with hx' | ⟨hpk, k', v, hne, hb, hpk'⟩
      · obtain ⟨k, hk, k', hk', hne, hpk, hpk'⟩ :=
          h.shared p x hx' (evolves.inner_of_inner hx' hin) hp
        exact ⟨k, hleft k hk, k', hleft k' hk', hne, hpk, hpk'⟩
      · exact ⟨key, hself, k', hleft k' (List.mem_map_of_mem (h.sound k' v hb)),
          fun he => hne he.symm, hpk, hpk'⟩
  | wrapped _ hruns => exact absurd hruns (h.not_runsPast hsub hall hkey)

theorem new_parted {h0 : 0 < ks} {h1 : ks ≤ 255} :
    Parted ks [] (new ks h0 h1 : HandleTrie ρ) where
  toFed := new_fed
  bound := fun k hk => absurd hk (by simp)
  shared := fun p a ha _ hp => absurd (nodeAt_new ha).1 hp

/-- **Without shared letters the operations agree.** -/
theorem keysAgree {ops : TrieValue ρ σ} (h : Parted ks es t) (hall : NoSharedLetter (es.map Prod.fst))
    (s : σ) : KeysAgree ops es t s := by
  intro k hk
  have hk' : SymbolKey ks k := h.keySize ▸ hk
  have hbound : k ∈ es.map Prod.fst ↔ ∃ v, t.Binds k v := by
    refine ⟨h.bound k, ?_⟩
    rintro ⟨v, hb⟩
    exact List.mem_map_of_mem (h.sound k v hb)
  obtain ⟨o, ho, hpost⟩ := lookup_yields h.loose hk.1
  have hfind : ∀ v, o = some v ↔ t.Binds k v := fun v =>
    (hpost v).trans (h.yields_iff (fun e he => he) hall hk')
  refine ⟨o, ho, ?_, fun v hv => h.sound k v ((hfind v).mp hv), fun v hv => ?_⟩
  · rw [hbound, Option.ne_none_iff_exists']
    exact exists_congr hfind
  · have hnot := h.not_runsPast (fun e he => he) hall hk'
    have hends := insert_ends ops h.loose (.inl trivial) hk.1 v s
    rcases hrun : t.insert ops k v s with e | r
    · rw [hrun] at hends
      exact absurd hends.2.2 hnot
    · rw [hrun] at hends
      have hret := hends.2.2 trivial
      constructor
      · rintro ⟨w, t', s', hr, hne⟩
        cases hr
        cases hret with
        | merged hq ha hl hsame hw =>
          have hsuffix := h.suffix_of_merge (fun e he => he) hall hk' hq ha hl hsame
          exact hbound.mpr ⟨w, _, _, ha, hl, hsuffix, hw⟩
        | added => exact absurd rfl hne
        | wrapped => exact absurd rfl hne
      · intro hmem
        obtain ⟨w, q, a, ha, hl, rfl, hw⟩ := hbound.mp hmem
        have hq := (h.loose.fits q a ha).path hl trivial
        cases hret with
        | merged hq' ha' hl' hsame hw' =>
          obtain rfl := h.loose.leaf_on_path ha hl hq ha' hl' hq'
          obtain rfl := Option.some.inj (ha.symm.trans ha')
          refine ⟨_, _, _, rfl, ?_⟩
          rw [Option.some.inj (hw'.symm.trans hw)]
          exact hv _ (h.sound _ w ⟨q, a, ha, hl, rfl, hw⟩)
        | added _ _ _ _ differs => exact absurd rfl (differs q a hq ha hl)
        | wrapped _ hruns => exact absurd hruns hnot

end Parted

/-! ## The operations agree: no letter is shared -/

section Agree

variable {ops : TrieValue ρ σ} {s : σ}

/-- A key that was inserted is found, with a value inserted under it. -/
theorem KeysAgree.found (h : KeysAgree ops entries t s) (hk : SymbolKey t.keySize k)
    (hmem : k ∈ entries.map Prod.fst) : ∃ v, t.lookup k = .ok (some v) ∧ (k, v) ∈ entries := by
  obtain ⟨o, ho, hiff, hval, -⟩ := h k hk
  obtain ⟨v, rfl⟩ := Option.ne_none_iff_exists'.mp (hiff.mpr hmem)
  exact ⟨v, ho, hval v rfl⟩

/-- The keys have paths of their own. -/
theorem KeysAgree.code_inj (h : KeysAgree ops entries t s)
    (hkeys : ∀ e ∈ entries, SymbolKey t.keySize e.1)
    (hown : ∀ e ∈ entries, ∀ e' ∈ entries, e.2 = e'.2 → e.1 = e'.1)
    (hk : k ∈ entries.map Prod.fst) (hk' : k' ∈ entries.map Prod.fst)
    (hcode : code k = code k') : k = k' := by
  have hsym : ∀ k ∈ entries.map Prod.fst, SymbolKey t.keySize k := fun k hk => by
    obtain ⟨e, he, rfl⟩ := List.mem_map.mp hk
    exact hkeys e he
  obtain ⟨v, hv, hmem⟩ := h.found (hsym k hk) hk
  obtain ⟨v', hv', hmem'⟩ := h.found (hsym k' hk') hk'
  have hlen : k.length = k'.length := (hsym k hk).1.trans (hsym k' hk').1.symm
  exact hown _ hmem _ hmem' (lookup_same_code hlen hcode hv hv')

/-- Insertions of keys with paths of their own do not run past the keys. -/
theorem insertAll_fed {h0 : 0 < ks} {h1 : ks ≤ 255} {s s' : σ}
    (hkeys : ∀ e ∈ entries, SymbolKey ks e.1)
    (hinj : ∀ k ∈ entries.map Prod.fst, ∀ k' ∈ entries.map Prod.fst, code k = code k' → k = k')
    (hrun : (new ks h0 h1).insertAll ops s entries = .ok (t, s')) : Fed ks entries t := by
  refine insertAll_invariant (P := Fed ks) entries ?_ entries [] _ t s s' (fun e he => he) new_fed
    hrun
  intro es key value t s r hmem hsub hfed hins
  refine (hfed.insert (hkeys _ hmem).1 (fun hruns => ?_) hins).1
  obtain ⟨k, hk, hne, hcode⟩ := hfed.code_eq_of_runsPast hruns
  obtain ⟨e, he, rfl⟩ := List.mem_map.mp hk
  exact hne (hinj _ (List.mem_map_of_mem (hsub e he)) _ (List.mem_map_of_mem hmem) hcode)

/-- The path of a key does not see the case of a letter. -/
theorem code_otherCase {i : Nat} {b : UInt8} (hk : ∀ b ∈ k, IsSymbol b) (hb : k[i]? = some b)
    (hd : ¬ IsDigit b) : code (k.set i (otherCase b)) = code k := by
  have hb' := (otherCase_spec (hk b (List.mem_of_getElem? hb)) hd).2.1
  refine List.ext_getElem? fun j => ?_
  unfold code
  rw [List.map_set, hb', List.getElem?_set]
  by_cases hij : i = j
  · subst hij
    obtain ⟨hi, rfl⟩ := List.getElem?_eq_some_iff.mp hb
    simp [hi]
  · rw [if_neg hij]

/-- **The operations agree only without shared letters.** -/
theorem KeysAgree.noSharedLetter (h : KeysAgree ops entries t s) (hfed : Fed ks entries t)
    (hkeys : ∀ e ∈ entries, SymbolKey t.keySize e.1)
    (hown : ∀ e ∈ entries, ∀ e' ∈ entries, e.2 = e'.2 → e.1 = e'.1) :
    NoSharedLetter (entries.map Prod.fst) := by
  have hsym : ∀ k ∈ entries.map Prod.fst, SymbolKey t.keySize k := fun k hk => by
    obtain ⟨e, he, rfl⟩ := List.mem_map.mp hk
    exact hkeys e he
  -- each key has its leaf
  have hleaf : ∀ k ∈ entries.map Prod.fst, ∃ q a v, q <+: code k ∧ t.nodeAt q = some a ∧
      0 < (t.node a).suffixStart ∧ (t.node a).suffix = k ∧ (t.node a).value = some v := by
    intro k hk
    obtain ⟨v, hv, hmem⟩ := h.found (hsym k hk) hk
    obtain ⟨o, ho, hpost⟩ := lookup_yields hfed.loose (hsym k hk).1
    cases hv.symm.trans ho
    obtain ⟨q, a, hq, ha, hl, hrest, hval⟩ := (hpost v).mp rfl
    have hmem' := hfed.sound _ v ⟨q, a, ha, hl, rfl, hval⟩
    exact ⟨q, a, v, hq, ha, hl, hown _ hmem' _ hmem rfl, hval⟩
  intro k hk i b hb hi
  by_contra hd
  obtain ⟨q, a, v, hq, ha, hl, rfl, hval⟩ := hleaf k hk
  have hiq : i < q.length := by
    rcases hi with rfl | ⟨k', hk', hne, hi⟩
    · cases q with
      | nil => exact absurd (Option.some.inj ((nodeAt_nil t).symm.trans ha) ▸ hl) hfed.loose.root_inner
      | cons => exact Nat.succ_pos _
    · by_contra hle
      obtain ⟨-, -, hcommon⟩ := le_commonPrefix_iff.mp (Nat.le_trans (Nat.not_lt.mp hle) hi)
      obtain ⟨q', a', v', hq', ha', hl', rfl, -⟩ := hleaf k' hk'
      have hqk : q <+: code (t.node a').suffix := by
        rw [List.prefix_iff_eq_take.mp hq, hcommon]
        exact List.take_prefix _ _
      obtain rfl := hfed.loose.leaf_on_path ha hl hqk ha' hl' hq'
      exact hne (by rw [Option.some.inj (ha.symm.trans ha')])
  -- the key with the letter in the other case is found too
  have hs := hsym _ hk
  obtain ⟨hsym', -, hne⟩ := otherCase_spec (hs.2 b (List.mem_of_getElem? hb)) hd
  have hcode := code_otherCase hs.2 hb hd
  have hk' : SymbolKey t.keySize ((t.node a).suffix.set i (otherCase b)) := by
    refine ⟨by rw [List.length_set]; exact hs.1, fun c hc => ?_⟩
    rcases List.mem_or_eq_of_mem_set hc with hc | rfl
    · exact hs.2 c hc
    · exact hsym'
  obtain ⟨o, ho, hiff, -, -⟩ := h _ hk'
  obtain ⟨o', ho', hpost⟩ := lookup_yields hfed.loose hk'.1
  cases ho.symm.trans ho'
  have hyields : t.Yields ((t.node a).suffix.set i (otherCase b)) v :=
    ⟨q, a, by rw [hcode]; exact hq, ha, hl, List.drop_set_of_lt hiq, hval⟩
  have hmem := hiff.mp (by rw [(hpost v).mpr hyields]; simp)
  have heq := h.code_inj hkeys hown hmem hk hcode
  have hget := congrArg (fun s => s[i]?) heq
  obtain ⟨hi', rfl⟩ := List.getElem?_eq_some_iff.mp hb
  simp only [List.getElem?_set_self hi', List.getElem?_eq_getElem hi', Option.some.injEq] at hget
  exact hne hget

end Agree

/--
**When `insert` and `lookup` agree on which keys are equal.**

The trie is reached by insertions that completed, of keys over the symbols of `TLB_INIT`; an
object is passed under one key only. The two operations agree on every such key if and only if
no key has a letter at its first symbol, or up to the symbol after the path it shares with
another key.
-/
theorem keysAgree_iff (ops : TrieValue ρ σ) {keySize : Nat} (h0 : 0 < keySize)
    (h1 : keySize ≤ 255) (entries : List (Key × ρ)) (hkeys : ∀ e ∈ entries, SymbolKey keySize e.1)
    (hown : ∀ e ∈ entries, ∀ e' ∈ entries, e.2 = e'.2 → e.1 = e'.1) (s s' : σ)
    (hrun : (new keySize h0 h1).insertAll ops s entries = .ok (t, s')) :
    KeysAgree ops entries t s' ↔ NoSharedLetter (entries.map Prod.fst) := by
  have hsize : t.keySize = keySize :=
    (insertAll_grown new_grown (fun e he => (hkeys e he).1) hrun).1
  constructor
  · intro hagree
    have hkeys' : ∀ e ∈ entries, SymbolKey t.keySize e.1 := hsize.symm ▸ hkeys
    have hfed := insertAll_fed hkeys
      (fun k hk k' hk' hcode => hagree.code_inj hkeys' hown hk hk' hcode) hrun
    exact hagree.noSharedLetter hfed hkeys' hown
  · intro hall
    have hparted : Parted keySize entries t := by
      refine insertAll_invariant (P := Parted keySize) entries ?_ entries [] _ t s s'
        (fun e he => he) Parted.new_parted hrun
      intro es key value t s r hmem hsub hp hins
      exact hp.insert hsub hall (hkeys _ hmem) hmem hins
    exact hparted.keysAgree hall s'

/-- `"0a"` and `"1A"`. -/
theorem keysAgree_iff_two :
    ∃ (t : HandleTrie Nat) (s' : Nat → Nat),
      (new 2 (by decide) (by decide)).insertAll counterValue (fun _ => 1)
        [([48, 97], 0), ([49, 65], 1)] = .ok (t, s') ∧
      (KeysAgree counterValue [([48, 97], 0), ([49, 65], 1)] t s' ↔
        NoSharedLetter [[48, 97], [49, 65]]) :=
  ⟨_, _, rfl, keysAgree_iff counterValue (show 0 < 2 by decide) (by decide)
    [([48, 97], 0), ([49, 65], 1)] (by unfold SymbolKey; decide +kernel) (by decide) (fun _ => 1) _ rfl⟩

/-- `"a"` was inserted, and `"A"` is found. -/
theorem lookup_ignores_case :
    ∃ (t : HandleTrie Nat) (s' : Nat → Nat),
      (new 1 (by decide) (by decide)).insertAll counterValue (fun _ => 1) [([97], 0)] = .ok (t, s') ∧
      t.lookup [65] = .ok (some 0) ∧ ¬ KeysAgree counterValue [([97], 0)] t s' := by
  refine ⟨_, _, rfl, rfl, fun h => ?_⟩
  obtain ⟨o, ho, -, hval, -⟩ := h [65] ⟨rfl, by decide +kernel⟩
  have hfound : o = some 0 := (Except.ok.inj ho).symm
  exact absurd (hval 0 hfound) (by decide)

end HandleTrie

end AttentionBroker
