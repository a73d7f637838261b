import AttentionBroker.Trie.Insert

/-!
# `HandleTrie::lookup` reads the map

`lookup` compares only the part of the key below the leaf it reaches and trusts the path
for the rest (`Yields`). `lookup_spec` says that on handles this is the map the trie stands for.
`find` is that map as a function.
-/

namespace AttentionBroker.HandleTrie

open Infra

variable {ρ σ δ : Type} {t t' : HandleTrie ρ} {p q : List Slot} {a b : Nat} {key : Key}

/--
What `lookup` compares: the leaf on the path of the key agrees with it below its place. The part
above is left to the path.
-/
def Yields (t : HandleTrie ρ) (key : Key) (v : ρ) : Prop :=
  ∃ q a, q <+: code key ∧ t.nodeAt q = some a ∧ 0 < (t.node a).suffixStart ∧
    key.drop q.length = (t.node a).suffix.drop q.length ∧ (t.node a).value = some v

/-- The invariant of the loop in `lookup`: the cursor is where the symbols read lead. -/
def Searching (t : HandleTrie ρ) (key : Key) (st : LookupState) : Prop :=
  match st.treeCursor with
  | none => ∀ v, ¬ t.Yields key v
  | some a => st.keyCursor.toNat ≤ t.keySize ∧
      t.nodeAt ((code key).take st.keyCursor.toNat) = some a

/-- The number of visits left, and none once the cursor is NULL. -/
def lookupMeasure (t : HandleTrie ρ) (st : LookupState) : Nat :=
  match st.treeCursor with
  | none => 0
  | some _ => t.keySize + 1 - st.keyCursor.toNat

/-- A visit of a leaf compares the rest of the keys and returns. -/
theorem lookupBody_rest {kc : UInt8} (hik : kc.toNat ≤ key.length)
    (hlen : key.length = (t.node a).suffix.length) (hl : 0 < (t.node a).suffixStart) :
    lookupBody t key ⟨some a, kc⟩
      = .ok (.inr (if key.drop kc.toNat = (t.node a).suffix.drop kc.toNat then (t.node a).value
        else none)) := by
  have hmatch := matchFrom_eq hlen (key.length - kc.toNat) kc.toNat (Nat.add_sub_of_le hik)
  unfold lookupBody
  simp only [bind, Except.bind, if_pos hl, hmatch]
  by_cases heq : key.drop kc.toNat = (t.node a).suffix.drop kc.toNat
  · rw [if_pos heq, if_pos (decide_eq_true heq)]
  · rw [if_neg heq, if_neg (by simpa using heq)]

/-- A visit of a leaf that agrees with the key up to here decides. -/
theorem lookupBody_leaf {kc : UInt8} (hik : kc.toNat ≤ key.length)
    (hlen : key.length = (t.node a).suffix.length) (hl : 0 < (t.node a).suffixStart)
    (htake : key.take kc.toNat = (t.node a).suffix.take kc.toNat) :
    lookupBody t key ⟨some a, kc⟩
      = .ok (.inr (if (t.node a).suffix = key then (t.node a).value else none)) := by
  rw [lookupBody_rest hik hlen hl]
  simp only [drop_eq_iff htake]

/-- A visit of an internal node goes on with the child in the slot of the next symbol. -/
theorem lookupBody_inner {kc : UInt8} (hik : kc.toNat < key.length)
    (hin : ¬ 0 < (t.node a).suffixStart) :
    lookupBody t key ⟨some a, kc⟩ = .ok (.inl ⟨t.kids a (TLB key[kc.toNat]), kc + 1⟩) := by
  unfold lookupBody
  simp only [bind, Except.bind, if_neg hin, charAt_lt hik]
  rfl

/-- **The step lemma of `lookup`.** -/
theorem lookupBody_progress (l : t.Loose t.keySize True) (hkey : key.length = t.keySize)
    {st : LookupState} (h : Searching t key st) :
    Progress (Searching t key) (lookupMeasure t) (fun o => ∀ v, o = some v ↔ t.Yields key v) st
      (lookupBody t key st) := by
  obtain ⟨cursor, kc⟩ := st
  cases cursor with
  | none =>
    intro v
    exact ⟨fun hv => absurd hv (by simp), fun hv => absurd hv (h v)⟩
  | some a =>
    obtain ⟨hle, hat⟩ : kc.toNat ≤ t.keySize ∧ t.nodeAt ((code key).take kc.toNat) = some a := h
    have hik : kc.toNat ≤ key.length := hkey.symm ▸ hle
    have hpath := List.take_prefix kc.toNat (code key)
    have hdepth := length_code_take hik
    have hfits := l.fits _ _ hat
    by_cases hl : 0 < (t.node a).suffixStart
    · rw [lookupBody_rest hik (hkey.trans (hfits.size hl).symm) hl]
      intro v
      by_cases hrest : key.drop kc.toNat = (t.node a).suffix.drop kc.toNat
      · rw [if_pos hrest]
        constructor
        · exact fun hv => ⟨_, a, hpath, hat, hl, by rwa [hdepth], hv⟩
        · rintro ⟨q, b, hq, hb, hlb, -, hv⟩
          obtain rfl := l.leaf_on_path hat hl hpath hb hlb hq
          rwa [Option.some.inj (hat.symm.trans hb)]
      · rw [if_neg hrest]
        refine ⟨fun hv => absurd hv (by simp), ?_⟩
        rintro ⟨q, b, hq, hb, hlb, hrest', -⟩
        obtain rfl := l.leaf_on_path hat hl hpath hb hlb hq
        obtain rfl := Option.some.inj (hat.symm.trans hb)
        rw [hdepth] at hrest'
        exact absurd hrest' hrest
    · have hinner := hfits.inner_depth hl trivial
      have hle' := t.keySize_le
      rw [hdepth] at hinner
      have hik : kc.toNat < key.length := by omega
      have hsucc : (kc + 1).toNat = kc.toNat + 1 := toNat_succ (by omega)
      rw [lookupBody_inner hik hl]
      cases hc : t.kids a (TLB key[kc.toNat]) with
      | none =>
        refine ⟨fun v hv => ?_, ?_⟩
        · obtain ⟨q, b, hq, hb, hlb, -⟩ := hv
          have hnext : (code key).take kc.toNat ++ [TLB key[kc.toNat]] <+: code key := by
            rw [← code_take_succ hik]
            exact List.take_prefix _ _
          exact l.no_leaf_of_slot hnext hat hl hc hq hb hlb
        · show 0 < t.keySize + 1 - kc.toNat
          omega
      | some b =>
        refine ⟨⟨by rw [hsucc]; omega, ?_⟩, ?_⟩
        · show t.nodeAt ((code key).take (kc + 1).toNat) = some b
          rw [hsucc, code_take_succ hik]
          exact nodeAt_kid hat hc
        · show t.keySize + 1 - (kc + 1).toNat < t.keySize + 1 - kc.toNat
          omega

/-- **What `lookup` returns**, for any key of the right length. -/
theorem lookup_yields (l : t.Loose t.keySize True) (hkey : key.length = t.keySize) :
    ∃ o, t.lookup key = .ok o ∧ ∀ v, o = some v ↔ t.Yields key v := by
  have hbound : lookupMeasure t { treeCursor := some t.root, keyCursor := 0 }
      < t.heap.next + loopBound := by
    have := t.keySize_le
    show t.keySize + 1 - 0 < t.heap.next + 512
    omega
  have hinit : Searching t key { treeCursor := some t.root, keyCursor := 0 } :=
    ⟨Nat.zero_le _, by simp⟩
  obtain ⟨o, ho, hpost⟩ := loop_total (fun st h => lookupBody_progress l hkey h) _ _
    hinit hbound
  refine ⟨o, ?_, hpost⟩
  unfold lookup checkSize
  rw [if_neg (by simpa using hkey)]
  exact ho

/-! ## Insertions, seen by `lookup` -/

/-- What `insert` compares before it merges: also the byte that led to the leaf. -/
def Merges (t : HandleTrie ρ) (key : Key) (v : ρ) : Prop :=
  ∃ q a, q <+: code key ∧ t.nodeAt q = some a ∧ 0 < (t.node a).suffixStart ∧
    key.drop (q.length - 1) = (t.node a).suffix.drop (q.length - 1) ∧ (t.node a).value = some v

theorem drop_of_drop_pred {s s' : Key} {n : Nat} (h : s.drop (n - 1) = s'.drop (n - 1)) :
    s.drop n = s'.drop n := by
  have hn : n = n - 1 + (n - (n - 1)) := by omega
  rw [hn, ← List.drop_drop, h, List.drop_drop]

theorem Merges.yields {v : ρ} (h : t.Merges key v) : t.Yields key v := by
  obtain ⟨q, a, hq, ha, hl, hsame, hv⟩ := h
  exact ⟨q, a, hq, ha, hl, drop_of_drop_pred hsame, hv⟩

/-- One leaf is on the path of a key. -/
theorem Loose.yields_unique {ks : Nat} {within : Prop} (l : t.Loose ks within) {v w : ρ}
    (h : t.Yields key v) (h' : t.Yields key w) : v = w := by
  obtain ⟨q, a, hq, ha, hl, -, hv⟩ := h
  obtain ⟨q', b, hq', hb, hlb, -, hw⟩ := h'
  obtain rfl := l.leaf_on_path ha hl hq hb hlb hq'
  obtain rfl := Option.some.inj (ha.symm.trans hb)
  exact Option.some.inj (hv.symm.trans hw)

/-- What is stored is found. -/
theorem Loose.yields_of_binds {ks : Nat} (l : t.Loose ks True) {v : ρ} (h : t.Binds key v) :
    t.Yields key v := by
  obtain ⟨q, a, ha, hl, rfl, hv⟩ := h
  exact ⟨q, a, (l.fits q a ha).path hl trivial, ha, hl, rfl, hv⟩

/-- What is found is what is stored under another key with the same path. -/
theorem Yields.binds {v : ρ} (h : t.Yields key v) : ∃ k, t.Binds k v := by
  obtain ⟨q, a, -, ha, hl, -, hv⟩ := h
  exact ⟨_, q, a, ha, hl, rfl, hv⟩

/-- A key that is found has the length of the keys. -/
theorem Yields.length {ks : Nat} {within : Prop} (l : t.Loose ks within) {v : ρ}
    (h : t.Yields key v) (hw : within) : key.length = ks := by
  obtain ⟨q, a, hq, ha, hl, hrest, -⟩ := h
  have hlen := congrArg List.length hrest
  have hqk := hq.length_le
  have hqs := ((l.fits q a ha).path hl hw).length_le
  have hsize := (l.fits q a ha).size hl
  rw [List.length_drop, List.length_drop] at hlen
  rw [code_length] at hqk hqs
  omega

theorem Yields.lookup {v : ρ} (h : t.Yields key v) (l : t.Loose t.keySize True) :
    t.lookup key = .ok (some v) := by
  obtain ⟨o, ho, hpost⟩ := lookup_yields l (h.length l trivial)
  rw [ho, (hpost v).mpr h]

theorem yields_of_lookup (l : t.Loose t.keySize True) {v : ρ} (h : t.lookup key = .ok (some v)) :
    t.Yields key v := by
  by_cases hkey : key.length = t.keySize
  · obtain ⟨o, ho, hpost⟩ := lookup_yields l hkey
    exact (hpost v).mp (Except.ok.inj (ho.symm.trans h))
  · unfold lookup checkSize at h
    rw [if_pos hkey] at h
    cases h

/-- A key that agrees with another one below its path has the same symbols. -/
theorem code_eq_of_drop {s s' : Key} (hq : q <+: code s) (hq' : q <+: code s')
    (h : s.drop q.length = s'.drop q.length) : code s = code s' := by
  have hpath := List.prefix_iff_eq_take.mp hq
  have hpath' := List.prefix_iff_eq_take.mp hq'
  rw [← List.take_append_drop q.length (code s), ← List.take_append_drop q.length (code s'),
    ← hpath, ← hpath', code, code, ← List.map_drop, ← List.map_drop, h]

/-- **What is found stays found.** -/
theorem Extends.yields {ks ks' : Nat} (e : Extends t t') (l : t.Loose ks True)
    (l' : t'.Loose ks' True) {v : ρ} (h : t.Yields key v) : t'.Yields key v := by
  obtain ⟨q, a, hq, ha, hl, hrest, hv⟩ := h
  obtain ⟨r, ha', hl', hsuffix, hvalue⟩ := e.leaf q a ha hl
  have hcode : code key = code (t'.node a).suffix := by
    rw [hsuffix]
    exact code_eq_of_drop hq ((l.fits q a ha).path hl trivial) hrest
  refine ⟨q ++ r, a, ?_, ha', hl', ?_, hvalue.trans hv⟩
  · rw [hcode]
    exact (l'.fits _ a ha').path hl' trivial
  · rw [hsuffix, List.length_append, ← List.drop_drop, hrest, List.drop_drop]

/-- Where the new leaf is lost, `lookup` finds the old leaf under one more key. -/
theorem reveals_lost (l : t.Loose t.keySize True) (e : Extends t t')
    (hkey : key.length = t.keySize) (ha : t.nodeAt q = some a) (hl : 0 < (t.node a).suffixStart) {i : Nat} (hqi : q.length ≤ i)
    (hi : i < key.length) (hne : key.getD i 0 ≠ (t.node a).suffix.getD i 0)
    (hcode : (code key).take (i + 1) = (code (t.node a).suffix).take (i + 1))
    (ha' : t'.nodeAt ((code key).take (i + 1)) = some a) :
    ∃ k, (∀ w, ¬ t.Yields k w) ∧ ∃ w, t'.Yields k w := by
  have hsize := (l.fits q a ha).size hl
  obtain ⟨v, hv⟩ := (l.fits q a ha).value hl
  obtain ⟨r, hr, hl', hsuffix, hvalue⟩ := e.leaf q a ha hl
  -- the old key, with the byte of the new one where the two differ
  have htake : (key.take (i + 1)).length = i + 1 := by
    rw [List.length_take]
    omega
  have hpath : code (key.take (i + 1) ++ (t.node a).suffix.drop (i + 1)) = code (t.node a).suffix := by
    rw [code, List.map_append, ← code, ← code, ← code_take, hcode, code, code, List.map_drop,
      List.take_append_drop]
  have hbyte : (key.take (i + 1) ++ (t.node a).suffix.drop (i + 1)).getD i 0 = key.getD i 0 := by
    rw [List.getD_eq_getElem?_getD, List.getElem?_append_left (by omega), List.getElem?_take,
      if_pos (by omega), ← List.getD_eq_getElem?_getD]
  refine ⟨key.take (i + 1) ++ (t.node a).suffix.drop (i + 1), ?_, v, (code key).take (i + 1), a,
    ?_, ha', hl', ?_, hvalue.trans hv⟩
  · rintro w ⟨p, b, hp, hb, hlb, hrest, -⟩
    obtain rfl := l.leaf_on_path ha hl (hpath ▸ (l.fits q a ha).path hl trivial) hb hlb hp
    obtain rfl := Option.some.inj (ha.symm.trans hb)
    exact hne (hbyte.symm.trans (getD_of_drop_eq hrest hqi))
  · rw [hpath, hcode]
    exact List.take_prefix _ _
  · rw [length_code_take (by omega), List.drop_left' htake, hsuffix]

/--
**A call either merges, or afterwards `lookup` finds a key that it did not find.**

That is the key itself, or, where the new leaf is lost, the key of the old leaf with the byte of
the new one at the place where the two were to be split.
-/
theorem Returns.merges_or_reveals {ops : TrieValue ρ σ} {value v : ρ} {s s' : σ}
    (hr : Returns ops t key value s (v, t', s')) (l : t.Loose t.keySize True)
    (hks : t.keySize ≠ 255) (hkey : key.length = t.keySize) :
    (t.Merges key v ∧ t' = t ∧ s' = ops.delete value (ops.merge v value s)) ∨
    (∀ w, ¬ t.Merges key w) ∧ Extends t t' ∧
      ∃ k, (∀ w, ¬ t.Yields k w) ∧ ∃ w, t'.Yields k w := by
  cases hr with
  | merged hq ha hl hsame hv => exact Or.inl ⟨⟨_, _, hq, ha, hl, hsame, hv⟩, rfl, rfl⟩
  | wrapped hsize => exact absurd hsize hks
  | added stored loose evolves binds differs lost =>
    have hnone : ∀ w, ¬ t.Yields key w := by
      rintro w ⟨q, a, hq, ha, hl, hrest, -⟩
      exact differs q a hq ha hl hrest
    refine Or.inr ⟨fun w h => hnone w h.yields, evolves.toExtends, ?_⟩
    by_cases hstored : stored
    · refine ⟨key, hnone, value, loose.yields_of_binds ?_⟩
      exact (binds key value).mpr (Or.inr ⟨hstored, rfl, rfl⟩)
    · obtain ⟨q, a, i, hq, ha, hl, hqi, hi, hne, hcode, ha'⟩ := lost hstored
      exact reveals_lost l evolves.toExtends hkey ha hl hqi hi hne hcode ha'
/-! ## Handles -/

/-- On handles the path can be trusted. -/
theorem Wf.yields_iff (wf : t.Wf) (hkey : ValidKey t.keySize key) {v : ρ} :
    t.Yields key v ↔ t.Binds key v := by
  constructor
  · rintro ⟨q, a, hq, ha, hl, hrest, hv⟩
    have hpath := List.prefix_iff_eq_take.mp hq
    have htake := wf.leaf_take hkey (wf.key_length ha) (hpath ▸ ha) hl
    exact ⟨q, a, ha, hl, (drop_eq_iff htake).mp hrest, hv⟩
  · rintro ⟨q, a, ha, hl, rfl, hv⟩
    exact ⟨q, a, (wf.fits q a ha).path hl, ha, hl, rfl, hv⟩

/-- **`lookup` is total on handles and returns the value bound to exactly that key.** -/
theorem lookup_spec (wf : t.Wf) (hkey : ValidKey t.keySize key) :
    ∃ o, t.lookup key = .ok o ∧ ∀ v, o = some v ↔ t.Binds key v := by
  obtain ⟨o, ho, hpost⟩ := lookup_yields wf.loose hkey.1
  exact ⟨o, ho, fun v => (hpost v).trans (wf.yields_iff hkey)⟩

/-! ## The map as a function -/

/-- The value bound to a handle. -/
def find (t : HandleTrie ρ) (k : Key) : Option ρ :=
  if ValidKey t.keySize k then
    match t.lookup k with
    | .ok o => o
    | .error _ => none
  else none

theorem Wf.find_eq_some (wf : t.Wf) {k : Key} {v : ρ} : t.find k = some v ↔ t.Binds k v := by
  unfold find
  by_cases hk : ValidKey t.keySize k
  · obtain ⟨o, ho, hpost⟩ := lookup_spec wf hk
    rw [if_pos hk, ho]
    exact hpost v
  · rw [if_neg hk]
    exact ⟨fun h => absurd h (by simp), fun h => absurd (wf.valid_of_binds h) hk⟩

theorem Wf.find_eq_none (wf : t.Wf) {k : Key} : t.find k = none ↔ ∀ v, ¬ t.Binds k v := by
  rw [Option.eq_none_iff_forall_ne_some]
  exact forall_congr' fun v => not_congr wf.find_eq_some

/-- `lookup` on a handle, as a function of the map. -/
theorem lookup_eq (wf : t.Wf) (hkey : ValidKey t.keySize key) :
    t.lookup key = .ok (t.find key) := by
  obtain ⟨o, ho, hpost⟩ := lookup_spec wf hkey
  rw [ho]
  refine congrArg _ (Option.ext fun v => ?_)
  exact (hpost v).trans wf.find_eq_some.symm

theorem Wf.find_valid (wf : t.Wf) {k : Key} {v : ρ} (h : t.find k = some v) :
    ValidKey t.keySize k :=
  wf.valid_of_binds (wf.find_eq_some.mp h)

/--
**`insert` as a function of the map.**

A key that is there keeps its object, which merges the new one. A key that is not there
is bound to the object passed. No other key changes.
-/
theorem insert_eq (ops : TrieValue ρ σ) (wf : t.Wf) (hkey : ValidKey t.keySize key)
    (value : ρ) (s : σ) :
    ∃ t', t'.Wf ∧ t'.keySize = t.keySize ∧
      t.insert ops key value s
        = .ok (match t.find key with
          | some v => (v, t', ops.delete value (ops.merge v value s))
          | none => (value, t', s)) ∧
      ∀ k, t'.find k = if k = key then some ((t.find key).getD value) else t.find k := by
  obtain ⟨⟨v', t', s'⟩, hr, ⟨hwf, hsize, hres⟩, -⟩ := insert_total ops wf hkey value s
  refine ⟨t', hwf, hsize, ?_⟩
  rcases hres with ⟨hb, hs, hbinds⟩ | ⟨hb, hv, hs, hbinds⟩
  · have hfind : t.find key = some v' := wf.find_eq_some.mpr hb
    simp only at hs
    rw [hr, hfind, hs]
    refine ⟨rfl, fun k => ?_⟩
    have hsame : t'.find k = t.find k := Option.ext fun v => by
      rw [Wf.find_eq_some hwf, wf.find_eq_some]
      exact hbinds k v
    by_cases hk : k = key
    · rw [if_pos hk, hsame, hk, hfind]
      rfl
    · rw [if_neg hk, hsame]
  · have hfind : t.find key = none := wf.find_eq_none.mpr hb
    simp only at hv hs
    rw [hr, hfind, hv, hs]
    refine ⟨rfl, fun k => Option.ext fun v => ?_⟩
    rw [Wf.find_eq_some hwf]
    refine (hbinds k v).trans ?_
    by_cases hk : k = key
    · subst hk
      rw [if_pos rfl, Option.getD_none, Option.some.injEq]
      exact ⟨fun h => h.elim (fun h => absurd h (hb v)) fun h => h.2.symm,
        fun h => Or.inr ⟨rfl, h.symm⟩⟩
    · rw [if_neg hk, wf.find_eq_some]
      exact ⟨fun h => h.elim id fun h => absurd h.1 hk, Or.inl⟩

end AttentionBroker.HandleTrie
