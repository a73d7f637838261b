import AttentionBroker.Infra.Owners
import AttentionBroker.Trie.Threads
import AttentionBroker.Trie.TraverseReader

/-!
# What threads on one trie do to each other

A step of a thread changes nodes whose mutex it has, makes new ones, and extends the trie
(`Effect`). Such a step keeps the place of every other thread, since their mutexes are others:
`Sound` is the invariant of all threads together, and `Sound.step` keeps it.
-/

namespace AttentionBroker

open Infra

namespace HandleTrie

variable {ρ σ δ : Type} {ops : TrieValue ρ σ} {t t' : HandleTrie ρ} {key : Key} {value : ρ}
  {a b c p : Nat} {kc : UInt8}

/-! ## Where an insertion is -/

/-- The place of an insertion at the head of its loop. -/
structure Placed (t : HandleTrie ρ) (key : Key) (c p : Nat) (kc : UInt8) : Prop where
  le : kc.toNat ≤ t.keySize
  cursor : t.nodeAt ((code key).take kc.toNat) = some c
  top : kc.toNat = 0 → p = c
  parent : 0 < kc.toNat → t.nodeAt ((code key).take (kc.toNat - 1)) = some p
  /-- A leaf of the key itself would have been merged. -/
  other : 0 < (t.node c).suffixStart → (t.node c).suffix ≠ key

/-- The place of an insertion that goes down from `p` to its child `c`. -/
structure Leaving (t : HandleTrie ρ) (key : Key) (c p : Nat) (kc : UInt8) : Prop where
  lt : kc.toNat < t.keySize
  parent : t.nodeAt ((code key).take kc.toNat) = some p
  inner : ¬ 0 < (t.node p).suffixStart
  child : t.kids p (TLB (key.getD kc.toNat 0)) = some c

theorem Placed.reached (h : Placed t key c p kc) (wf : t.Wf) (hkey : ValidKey t.keySize key)
    (s : σ) : Reached t True key s ((code key).take kc.toNat) ⟨t, s, c, p, kc⟩ := by
  have hle : kc.toNat ≤ key.length := hkey.1.symm ▸ h.le
  have hlen := length_code_take hle
  refine ⟨wf.loose, rfl, rfl, fun _ => ⟨Evolves.refl key t, fun _ _ => Iff.rfl⟩, h.cursor, ?_,
    fun _ => List.take_prefix _ _, fun q d hq => ?_⟩
  · rw [hlen, Nat.mod_eq_of_lt kc.toNat_lt]
  · have hpos : 0 < kc.toNat := by
      rw [hq, List.length_append, List.length_singleton] at hlen
      omega
    have hlt : kc.toNat - 1 < key.length := by omega
    have hsucc := code_take_succ hlt
    rw [Nat.sub_add_cancel hpos] at hsucc
    obtain ⟨rfl, hd⟩ := List.append_inj' (hsucc.symm.trans hq) rfl
    refine ⟨h.parent hpos, fun _ => ?_⟩
    rw [← List.singleton_inj.mp hd, List.getD_eq_getElem?_getD, List.getElem?_eq_getElem hlt]
    rfl

/-- **The loop of `insert` goes on from the place of an insertion.** -/
theorem Placed.going (h : Placed t key c p kc) (wf : t.Wf) (hkey : ValidKey t.keySize key)
    (s : σ) : ∃ m, Going t True key s m ⟨t, s, c, p, kc⟩ := by
  have hle : kc.toNat ≤ key.length := hkey.1.symm ▸ h.le
  have hlen := length_code_take hle
  have hbyte := kc.toNat_lt
  by_cases hl : 0 < (t.node c).suffixStart
  · refine ⟨258 - kc.toNat, .atLeaf (h.reached wf hkey s) hl ?_ fun _ => ?_⟩
    · show 258 - kc.toNat + kc.toNat = 258
      omega
    · refine ⟨_, List.take_prefix _ _, h.cursor, hl, rfl, Nat.le_refl _, fun hdrop => ?_,
        fun j h1 h2 => absurd h1 (Nat.not_le.mpr h2)⟩
      have htake := congrArg (List.take (kc.toNat - 1)) (wf.leaf_take hkey h.le h.cursor hl)
      rw [List.take_take, List.take_take, Nat.min_eq_left (Nat.sub_le _ _)] at htake
      rw [hlen] at hdrop
      exact h.other hl ((drop_eq_iff htake).mp hdrop)
  · refine ⟨t.heap.next + 260 - kc.toNat, .descending (h.reached wf hkey s) hl rfl ?_⟩
    rw [hlen]
    omega

/-- **An iteration that goes on leaves the insertion in a place.** -/
theorem Going.placed {s : σ} {m : Nat} {st : InsertState ρ σ} (wf : t.Wf)
    (hkey : ValidKey t.keySize key) (hg : Going t True key s m st) (hpos : 0 < st.keyCursor.toNat) :
    st.trie.Wf ∧ Evolves key t st.trie ∧ (∀ k v, st.trie.Binds k v ↔ t.Binds k v) ∧ st.store = s ∧
      Placed st.trie key st.treeCursor st.parent st.keyCursor := by
  have hof : ∀ q, Reached t True key s q st →
      (0 < (st.trie.node st.treeCursor).suffixStart →
        (st.trie.node st.treeCursor).suffix ≠ key) →
      st.trie.Wf ∧ Evolves key t st.trie ∧ (∀ k v, st.trie.Binds k v ↔ t.Binds k v) ∧
        st.store = s ∧ Placed st.trie key st.treeCursor st.parent st.keyCursor := by
    intro q h hother
    obtain ⟨hev, hbinds⟩ := h.kept trivial
    have hloose : st.trie.Loose st.trie.keySize True := h.keySize.symm ▸ h.loose
    have hlen : st.keyCursor.toNat = q.length := h.cursor_eq hkey.1 trivial
    have hpath := List.prefix_iff_eq_take.mp (h.on_key trivial)
    rw [← hlen] at hpath
    refine ⟨hloose.wf fun k v hb => ?_, hev, hbinds, h.store, ?_, hpath ▸ h.at_cursor,
      fun h0 => absurd h0 (Nat.ne_of_gt hpos), fun _ => ?_, hother⟩
    · rw [h.keySize]
      exact wf.valid_of_binds ((hbinds k v).mp hb)
    · rw [hlen, h.keySize]
      exact h.loose.length_le h.at_cursor
    · have hlt : st.keyCursor.toNat - 1 < key.length := by
        have hle := (h.on_key trivial).length_le
        rw [code_length] at hle
        omega
      have hsucc := code_take_succ hlt
      rw [Nat.sub_add_cancel hpos, ← hpath] at hsucc
      exact (h.at_parent _ _ hsucc).1
  cases hg with
  | descending h hin => exact hof _ h fun hl => absurd hl hin
  | atLeaf h hl hm hpassed => exact hof _ h fun _ => (hpassed trivial).ne
  | past hk hks hruns => exact absurd hruns (wf.not_runsPast hkey)
  | wrapped h hin hbare hks hruns => exact absurd (hruns trivial) (wf.not_runsPast hkey)

/-! ## What a step does to the others -/

/-- What a thread that has these mutexes may do to a trie. -/
structure Effect (held : Finset Nat) (t t' : HandleTrie ρ) : Prop extends Extends t t' where
  wf : t'.Wf
  next : t.heap.next ≤ t'.heap.next
  frame : ∀ x, x < t.heap.next → x ∉ held → t'.node x = t.node x

theorem Effect.refl (wf : t.Wf) (held : Finset Nat) : Effect held t t :=
  ⟨Extends.refl t, wf, Nat.le_refl _, fun _ _ _ => rfl⟩

section Others

variable {held : Finset Nat} (e : Effect held t t') (wf : t.Wf)
include e wf

/-- A node whose mutex is another's stays where it is. -/
theorem Effect.stays {q : List Slot} (ha : t.nodeAt q = some a) (hfree : a ∉ held) :
    t'.nodeAt q = some a := by
  have hnode := e.frame a (wf.allocated q a ha) hfree
  by_cases hl : 0 < (t.node a).suffixStart
  · obtain ⟨r, hr, hl', -, -⟩ := e.leaf q a ha hl
    have hstart := (wf.fits q a ha).start hl
    have hstart' := (e.wf.fits _ a hr).start hl'
    rw [hnode, hstart, List.length_append] at hstart'
    have hnil : r = [] := List.eq_nil_of_length_eq_zero (by omega)
    rwa [hnil, List.append_nil] at hr
  · exact (e.inner q a ha hl).1

theorem Effect.placed (h : Placed t key c p kc) (hc : c ∉ held) (hp : p ∉ held) :
    Placed t' key c p kc where
  le := e.keySize.symm ▸ h.le
  cursor := e.stays wf h.cursor hc
  top := h.top
  parent := fun hpos => e.stays wf (h.parent hpos) hp
  other := fun hl => by
    have hnode := e.frame c (wf.allocated _ c h.cursor) hc
    rw [hnode] at hl ⊢
    exact h.other hl

theorem Effect.leaving (h : Leaving t key c p kc) (hp : p ∉ held) : Leaving t' key c p kc := by
  have hnode := e.frame p (wf.allocated _ p h.parent) hp
  refine ⟨e.keySize.symm ▸ h.lt, e.stays wf h.parent hp, ?_, ?_⟩
  · rw [hnode]
    exact h.inner
  · have hchild := h.child
    unfold kids at hchild ⊢
    rw [hnode, hchild]

end Others

end HandleTrie

/-! ## Steps of an insertion -/

namespace InsertStage

variable {ρ σ : Type}

/-- The mutexes that an insertion has. -/
def held : InsertStage ρ → Finset Nat
  | .entered | .returned _ => ∅
  | .holding treeCursor parent _ => {treeCursor, parent}
  | .descending _ parent _ => {parent}

/-- An insertion is in its place. -/
def InPlace (t : HandleTrie ρ) (key : Key) : InsertStage ρ → Prop
  | .entered | .returned _ => True
  | .holding treeCursor parent keyCursor => t.Placed key treeCursor parent keyCursor
  | .descending treeCursor parent keyCursor => t.Leaving key treeCursor parent keyCursor

/-- The node whose mutex an insertion locks next. -/
def awaits (t : HandleTrie ρ) : InsertStage ρ → Option Nat
  | .entered => some t.root
  | .descending treeCursor _ _ => some treeCursor
  | .holding _ _ _ | .returned _ => none

/-- A bound on the steps of an insertion that are to come. -/
def toGo (keySize : Nat) : InsertStage ρ → Nat
  | .entered => 2 * keySize + 3
  | .holding _ _ keyCursor => 2 * (keySize - keyCursor.toNat) + 2
  | .descending _ _ keyCursor => 2 * (keySize - keyCursor.toNat) + 1
  | .returned _ => 0

/-- What a step to this stage does to the map: nothing, or all of it when the call returns. -/
def Updates (ops : TrieValue ρ σ) (key : Key) (value : ρ) (s s' : SharedTrie ρ σ) :
    InsertStage ρ → Prop
  | .returned v => HandleTrie.Inserted ops s.trie key value s.store (v, s'.trie, s'.store)
  | _ => s'.store = s.store ∧ ∀ k v, s'.trie.Binds k v ↔ s.trie.Binds k v

end InsertStage

namespace HandleTrie

variable {ρ σ δ : Type} {ops : TrieValue ρ σ} {t t' : HandleTrie ρ} {key : Key} {value : ρ}
  {c p : Nat} {kc : UInt8} {stage stage' : InsertStage ρ} {s s' : SharedTrie ρ σ}

/-- How a step goes: it is made, or the mutex that it takes is locked, or the call has returned. -/
def Outcome {β : Type} (locked : Finset Nat) (awaits : Option Nat) (Returned : Prop)
    (Post : SharedTrie ρ σ → β → Prop) : Except Obstacle (SharedTrie ρ σ × β) → Prop
  | .ok (s, b) => Post s b
  | .error .waits => ∃ a ∈ locked, awaits = some a
  | .error .returned => Returned
  | .error (.fault _) => False

/-- What a step of an insertion has to do. -/
structure InsertSteps (ops : TrieValue ρ σ) (key : Key) (value : ρ) (s : SharedTrie ρ σ)
    (stage : InsertStage ρ) (s' : SharedTrie ρ σ) (stage' : InsertStage ρ) : Prop where
  effect : Effect stage.held s.trie s'.trie
  place : stage'.InPlace s'.trie key
  updates : stage'.Updates ops key value s s'
  locks : Exchanges stage.held stage'.held s.locked s'.locked
  fewer : stage'.toGo s.trie.keySize < stage.toGo s.trie.keySize

theorem toGo_holding_succ {c' p' n : Nat} (hlt : kc.toNat < s.trie.keySize)
    (hn : 2 * (s.trie.keySize - kc.toNat) < n) :
    (InsertStage.holding c' p' (kc + 1) : InsertStage ρ).toGo s.trie.keySize < n := by
  have hsucc : (kc + 1).toNat = kc.toNat + 1 :=
    toNat_succ (Nat.lt_of_lt_of_le hlt s.trie.keySize_le)
  show 2 * (s.trie.keySize - (kc + 1).toNat) + 2 < n
  omega

theorem unlockBoth_locked : (unlockBoth s c p).locked = s.locked \ {c, p} := by
  unfold unlockBoth SharedTrie.unlock
  by_cases h : c = p
  · rw [if_neg (not_not.mpr h), h, Finset.pair_eq_singleton, Finset.sdiff_singleton_eq_erase]
  · rw [if_pos h]
    ext x
    simp only [Finset.mem_erase, Finset.mem_sdiff, Finset.mem_insert, Finset.mem_singleton]
    tauto

/-- Only the two nodes whose mutex the insertion has change, and new ones come. -/
theorem Iterated.frame (h : Iterated key value c p kc s s' stage) :
    s.trie.heap.next ≤ s'.trie.heap.next ∧
      ∀ x, x < s.trie.heap.next → x ∉ ({c, p} : Finset Nat) → s'.trie.node x = s.trie.node x := by
  have hne : ∀ {x}, x ∉ ({c, p} : Finset Nat) → x ≠ c ∧ x ≠ p := fun hx => by
    simpa using hx
  cases h with
  | down => constructor <;> split <;> first | exact Nat.le_refl _ | exact fun _ _ _ => rfl
  | attached hk hc hin =>
    rw [unlockBoth_trie]
    refine ⟨Nat.le_succ _, fun x hx hxh => ?_⟩
    show ((s.trie.newNode _).link c _ _).node x = _
    rw [node_link_ne (hne hxh).1, node_newNode_ne (Nat.ne_of_lt hx)]
  | pushed hk hc hl hpred hsame hfree =>
    refine ⟨Nat.le_succ _, fun x hx hxh => ?_⟩
    show ((((s.trie.newNode _).link _ _ _).push c).link p _ _).node x = _
    rw [node_link_ne (hne hxh).2, node_push_ne (hne hxh).1, node_link_ne (Nat.ne_of_lt hx),
      node_newNode_ne (Nat.ne_of_lt hx)]
  | split hk hc hl hpred hd hkd hx =>
    rw [unlockBoth_trie]
    refine ⟨Nat.le_add_right _ 2, fun x hx hxh => ?_⟩
    have hlt : x ≠ s.trie.heap.next + 1 := by omega
    show ((((((s.trie.newNode _).push c).newNode _).link _ _ _).link _ _ c).link p _ _).node x = _
    rw [node_link_ne (hne hxh).2, node_link_ne hlt, node_link_ne hlt, node_newNode_ne hlt,
      node_push_ne (hne hxh).1, node_newNode_ne (Nat.ne_of_lt hx)]

section Iteration

variable (wf : s.trie.Wf) (hkey : ValidKey s.trie.keySize key)
  (h : Placed s.trie key c p kc)
include wf hkey h

/-- A leaf of another key is met before the end of the key. -/
theorem Placed.lt_of_leaf (hl : 0 < (s.trie.node c).suffixStart) : kc.toNat < key.length := by
  have hle : kc.toNat ≤ key.length := hkey.1.symm ▸ h.le
  refine Nat.lt_of_le_of_ne hle fun heq => h.other hl ?_
  have hlen := hkey.1.trans ((wf.fits _ c h.cursor).key hl).1.symm
  have htake := wf.leaf_take hkey h.le h.cursor hl
  rw [heq, List.take_length, hlen, List.take_length] at htake
  exact htake.symm

/-- The depth of a leaf is where it differs from its siblings. -/
theorem Placed.start_eq (hl : 0 < (s.trie.node c).suffixStart) :
    (s.trie.node c).suffixStart.toNat = kc.toNat ∧ 0 < kc.toNat := by
  have hstart := (wf.fits _ c h.cursor).start hl
  rw [length_code_take (hkey.1.symm ▸ h.le)] at hstart
  exact ⟨hstart, hstart ▸ pos_iff.mp hl⟩

/-- The parent of a leaf is another node. -/
theorem Placed.ne_of_leaf (hl : 0 < (s.trie.node c).suffixStart) : c ≠ p := by
  intro hcp
  obtain ⟨-, hpos⟩ := h.start_eq wf hkey hl
  have hpath := wf.tree _ _ _ h.cursor (hcp ▸ h.parent hpos)
  have hle : kc.toNat ≤ key.length := hkey.1.symm ▸ h.le
  have hlen := congrArg List.length hpath
  rw [length_code_take hle, length_code_take (by omega)] at hlen
  omega

/-- **An iteration does not fail**, and does not have to wait. -/
theorem Placed.iterated (value : ρ) (halloc : ∀ a ∈ s.locked, a < s.trie.heap.next) :
    ∃ s' stage, Iterated key value c p kc s s' stage := by
  have hle : kc.toNat ≤ key.length := hkey.1.symm ▸ h.le
  have hk := charAt_le hle
  cases hc : s.trie.kids c (TLB (key.getD kc.toNat 0)) with
  | some a => exact ⟨_, _, .down hk hc⟩
  | none =>
    by_cases hl : 0 < (s.trie.node c).suffixStart
    · obtain ⟨hstart, hpos⟩ := h.start_eq wf hkey hl
      have hlen := hkey.1.trans ((wf.fits _ c h.cursor).key hl).1.symm
      have hd := charAt_le (hlen ▸ hle)
      have hpred := charAt_pred hpos hle
      by_cases hsame : key.getD kc.toNat 0 = (s.trie.node c).suffix.getD kc.toNat 0
      · exact ⟨_, _, .pushed hk hc hl hpred (hsame ▸ hd) fun hmem =>
          Nat.lt_irrefl _ (halloc _ hmem)⟩
      · exact ⟨_, _, .split hk hc hl hpred hd hsame (hstart.symm ▸ hd)⟩
    · exact ⟨_, _, .attached hk hc hl⟩

/-- An iteration that returns has updated the map. -/
theorem Placed.returns {v : ρ} (hit : Iterated key value c p kc s s' (.returned v))
    (ops : TrieValue ρ σ) : Inserted ops s.trie key value s.store (v, s'.trie, s'.store) ∧
      Evolves key s.trie s'.trie := by
  obtain ⟨m, hg⟩ := h.going wf hkey s.store
  have hends : Iterates ops s.trie True key value s.store m
      (insertBody ops key value ⟨s.trie, s.store, c, p, kc⟩) :=
    insertBody_iterates wf.loose hkey.1 (.inl trivial) hg
  rw [hit.insertBody rfl] at hends
  obtain ⟨hsize, -, hret⟩ := hends
  exact (hret trivial).inserted wf hkey hsize

/-- An iteration that goes on has left the map alone. -/
theorem Placed.goesOn (ops : TrieValue ρ σ) (value : ρ) {c' p' : Nat} {kc' : UInt8}
    (hit : Iterated key value c p kc s s' (.holding c' p' kc')) :
    s'.trie.Wf ∧ Evolves key s.trie s'.trie ∧
      (∀ k v, s'.trie.Binds k v ↔ s.trie.Binds k v) ∧ s'.store = s.store ∧
      Placed s'.trie key c' p' kc' := by
  obtain ⟨m, hg⟩ := h.going wf hkey s.store
  have hends : Iterates ops s.trie True key value s.store m
      (insertBody ops key value ⟨s.trie, s.store, c, p, kc⟩) :=
    insertBody_iterates wf.loose hkey.1 (.inl trivial) hg
  rw [hit.insertBody rfl] at hends
  obtain ⟨m', -, hg'⟩ := hends
  refine hg'.placed wf hkey ?_
  cases hit with
  | pushed hk hc hl =>
    have hlt := h.lt_of_leaf wf hkey hl
    have hks := s.trie.keySize_le
    have hsize := hkey.1
    show 0 < (kc + 1).toNat
    rw [toNat_succ (by omega)]
    exact Nat.succ_pos _

/-- **What an iteration of a thread does.** -/
theorem Placed.steps (hit : Iterated key value c p kc s s' stage) (hheld : {c, p} ⊆ s.locked)
    (ops : TrieValue ρ σ) : InsertSteps ops key value s (.holding c p kc) s' stage := by
  obtain ⟨hnext, hframe⟩ := hit.frame
  have hrelease : Exchanges {c, p} ∅ s.locked (s.locked \ {c, p}) := by
    simpa using Exchanges.release hheld (Finset.empty_subset {c, p})
  cases hit with
  | @down k a hk ha =>
    have htrie : (if c ≠ p then s.unlock p else s).trie = s.trie := by split <;> rfl
    have hstore : (if c ≠ p then s.unlock p else s).store = s.store := by split <;> rfl
    have hle : kc.toNat ≤ key.length := hkey.1.symm ▸ h.le
    have hin := wf.laid.inner_of_kid h.cursor ha
    have hdepth := (wf.fits _ c h.cursor).inner_depth hin
    rw [length_code_take hle] at hdepth
    obtain rfl := Except.ok.inj ((charAt_le hle).symm.trans hk)
    refine ⟨?_, ?_, ?_, ?_, Nat.lt_succ_self _⟩
    · rw [htrie]
      exact Effect.refl wf _
    · show Leaving _ key a c kc
      rw [htrie]
      exact ⟨hdepth, h.cursor, hin, ha⟩
    · exact ⟨hstore, fun k v => by rw [htrie]⟩
    · show Exchanges {c, p} {c} s.locked _
      have hlocks := Exchanges.release hheld (Finset.singleton_subset_iff.mpr
        (Finset.mem_insert_self c {p}))
      by_cases hcp : c = p
      · subst hcp
        simpa using hlocks
      · have hdiff : ({c, p} : Finset Nat) \ {c} = {p} := by
          ext x
          simp only [Finset.mem_sdiff, Finset.mem_insert, Finset.mem_singleton]
          exact ⟨fun h => h.1.resolve_left h.2, fun h => ⟨.inr h, h ▸ Ne.symm hcp⟩⟩
        rw [if_pos hcp]
        rwa [hdiff, Finset.sdiff_singleton_eq_erase] at hlocks
  | attached hk hc hin =>
    obtain ⟨hins, hev⟩ := h.returns wf hkey (.attached hk hc hin) ops
    refine ⟨⟨hev.toExtends, hins.wf, hnext, hframe⟩, trivial, hins, ?_, Nat.succ_pos _⟩
    rw [unlockBoth_locked]
    exact hrelease
  | split hk hc hl hpred hd hne hx =>
    obtain ⟨hins, hev⟩ := h.returns wf hkey (.split hk hc hl hpred hd hne hx) ops
    refine ⟨⟨hev.toExtends, hins.wf, hnext, hframe⟩, trivial, hins, ?_, Nat.succ_pos _⟩
    rw [unlockBoth_locked]
    exact hrelease
  | pushed hk hc hl hpred hsame hfree =>
    obtain ⟨hwf', hev, hbinds, hstore, hplaced⟩ :=
      h.goesOn wf hkey ops value (.pushed hk hc hl hpred hsame hfree)
    refine ⟨⟨hev.toExtends, hwf', hnext, hframe⟩, hplaced, ⟨hstore, hbinds⟩, ?_,
      toGo_holding_succ (hkey.1 ▸ h.lt_of_leaf wf hkey hl) (Nat.lt_add_of_pos_right Nat.two_pos)⟩
    -- `p` is unlocked and the new node is locked in its place
    have hp := wf.allocated _ p (h.parent (h.start_eq wf hkey hl).2)
    have hcp := h.ne_of_leaf wf hkey hl
    have hpn : p ≠ s.trie.heap.next := Nat.ne_of_lt hp
    have hc : c ∈ s.locked := hheld (Finset.mem_insert_self c {p})
    show Exchanges {c, p} {c, s.trie.heap.next} s.locked
      ((Insert.insert s.trie.heap.next s.locked).erase p)
    refine ⟨?_, ?_⟩
    · ext x
      simp only [Finset.mem_erase, Finset.mem_union, Finset.mem_sdiff, Finset.mem_insert,
        Finset.mem_singleton]
      by_cases hx : x = c
      · simp [hx, hcp, hc]
      · by_cases hxn : x = s.trie.heap.next
        · simp [hxn, Ne.symm hpn]
        · simp [hx, hxn, and_comm]
    · rw [Finset.disjoint_insert_right, Finset.disjoint_singleton_right]
      exact ⟨fun hm => (Finset.mem_sdiff.mp hm).2 (Finset.mem_insert_self c {p}),
        fun hm => hfree (Finset.mem_sdiff.mp hm).1⟩

end Iteration

/-- **What a thread does when it has the mutex of the child.** -/
theorem Leaving.arrives (wf : s.trie.Wf) (hkey : ValidKey s.trie.keySize key)
    (h : Leaving s.trie key c p kc) (hheld : {p} ⊆ s.locked) (hfree : c ∉ s.locked)
    (ops : TrieValue ρ σ) (value : ρ) : ∃ s' stage,
      arrive ops key value c p kc s = .ok (s', stage) ∧
        InsertSteps ops key value s (.descending c p kc) s' stage := by
  have hlt : kc.toNat < key.length := hkey.1.symm ▸ h.lt
  have hsucc : (kc + 1).toNat = kc.toNat + 1 :=
    toNat_succ (Nat.lt_of_lt_of_le h.lt s.trie.keySize_le)
  have hat : s.trie.nodeAt ((code key).take (kc.toNat + 1)) = some c := by
    have hget : key.getD kc.toNat 0 = key[kc.toNat] := by
      rw [List.getD_eq_getElem?_getD, List.getElem?_eq_getElem hlt]
      rfl
    rw [code_take_succ hlt]
    exact nodeAt_kid h.parent (hget ▸ h.child)
  have hfits := wf.fits _ c hat
  have hlock := SharedTrie.lock_eq_ok.mpr ⟨hfree, rfl⟩
  -- the two ways to go on
  have hon : ((s.trie.node c).suffixStart > 0 → (s.trie.node c).suffix ≠ key) →
      InsertSteps ops key value s (.descending c p kc)
        { s with locked := Insert.insert c s.locked } (.holding c p (kc + 1)) := by
    intro hother
    refine ⟨Effect.refl wf _, ⟨?_, ?_, ?_, ?_, hother⟩, ⟨rfl, fun _ _ => Iff.rfl⟩,
      Exchanges.acquire hheld hfree rfl,
      toGo_holding_succ h.lt (Nat.lt_succ_self _)⟩
    · rw [hsucc]
      exact h.lt
    · rw [hsucc]
      exact hat
    · rw [hsucc]
      exact fun h0 => absurd h0 (Nat.succ_ne_zero _)
    · rw [hsucc]
      exact fun _ => h.parent
  unfold arrive
  simp only [hlock, bind, Except.bind]
  by_cases hl : 0 < (s.trie.node c).suffixStart
  · have htake := congrArg (List.take kc.toNat)
      (wf.leaf_take hkey (Nat.succ_le_of_lt h.lt) hat hl)
    rw [List.take_take, List.take_take, Nat.min_eq_left (Nat.le_succ _)] at htake
    rw [if_pos hl, matchFrom_eq (hkey.1.trans (hfits.key hl).1.symm) _ _
      (Nat.add_sub_of_le (Nat.le_of_lt hlt))]
    simp only [Except.mapError, drop_eq_iff htake]
    by_cases hsame : (s.trie.node c).suffix = key
    · obtain ⟨v, hv⟩ := hfits.value hl
      have hcp : c ≠ p := fun hcp => h.inner (hcp ▸ hl)
      simp only [hsame, decide_true, if_true, hv, if_pos hcp]
      refine ⟨_, _, rfl, Effect.refl wf _, trivial, ?_, ?_, Nat.succ_pos _⟩
      · exact ⟨wf, rfl, .inl ⟨⟨_, c, hat, hl, hsame, hv⟩, rfl, fun _ _ => Iff.rfl⟩⟩
      · refine ⟨?_, Finset.disjoint_empty_right _⟩
        show ((Insert.insert c s.locked).erase p).erase c = s.locked \ {p} ∪ ∅
        rw [Finset.erase_right_comm, Finset.erase_insert hfree, Finset.union_empty,
          Finset.sdiff_singleton_eq_erase]
    · simp only [hsame, decide_false, Bool.false_eq_true, if_false]
      exact ⟨_, _, rfl, hon fun _ => hsame⟩
  · rw [if_neg hl]
    exact ⟨_, _, rfl, hon fun hl' => absurd hl' hl⟩

/-- **The next step of an insertion.** -/
theorem insertStep_outcome (ops : TrieValue ρ σ) (value : ρ) (wf : s.trie.Wf)
    (hkey : ValidKey s.trie.keySize key) (hplace : stage.InPlace s.trie key)
    (hheld : stage.held ⊆ s.locked) (halloc : ∀ a ∈ s.locked, a < s.trie.heap.next) :
    Outcome s.locked (stage.awaits s.trie) (∃ v, stage = .returned v)
      (InsertSteps ops key value s stage) (insertStep ops key value s stage) := by
  cases stage with
  | entered =>
    have hsize : s.trie.checkSize key = .ok () := if_neg (not_not.mpr hkey.1)
    simp only [insertStep, hsize, Except.mapError, bind, Except.bind]
    by_cases hfree : s.trie.root ∈ s.locked
    · rw [SharedTrie.lock, if_pos hfree]
      exact ⟨_, hfree, rfl⟩
    · rw [SharedTrie.lock_eq_ok.mpr ⟨hfree, rfl⟩]
      refine ⟨Effect.refl wf _, ⟨Nat.zero_le _, nodeAt_nil _, fun _ => rfl,
        fun h0 => absurd h0 (Nat.lt_irrefl 0), fun hl => absurd hl wf.root_inner⟩,
        ⟨rfl, fun _ _ => Iff.rfl⟩, Exchanges.acquire (Finset.empty_subset _) hfree ?_,
        Nat.lt_succ_self _⟩
      exact Finset.pair_eq_singleton s.trie.root
  | holding c p kc =>
    obtain ⟨s', stage', hit⟩ := Placed.iterated wf hkey hplace value halloc
    rw [insertStep, iterate_eq_ok.mpr hit]
    exact Placed.steps wf hkey hplace hit hheld ops
  | descending c p kc =>
    by_cases hfree : c ∈ s.locked
    · rw [insertStep, arrive, SharedTrie.lock, if_pos hfree]
      exact ⟨c, hfree, rfl⟩
    · obtain ⟨s', stage', harrive, hsteps⟩ := Leaving.arrives wf hkey hplace hheld hfree ops value
      rw [insertStep, harrive]
      exact hsteps
  | returned v => exact ⟨v, rfl⟩

end HandleTrie

end AttentionBroker
