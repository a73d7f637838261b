import AttentionBroker.Trie.KeySafety
import AttentionBroker.Hebbian.Requests

/-!
# Requests that raise

A client chooses the bytes of the handles and the entries of a stimulus, and a request that
raises stays on the network as far as it got. `Served` are the networks after any requests,
those that completed and those that raised. `Loose` is what holds of all of them: the tries
are those of keys of any bytes, and no node object is bound to two keys.

`spreadStimuli_raises` says what a stimulus leaves when it raises: all the network but the
tokens, which `alienate_tokens` has taken before the request is looked at.
-/

namespace AttentionBroker

open Infra

/-! ## Calls and what they keep -/

namespace NetM

variable {α β : Type} {P : HebbianNetwork → Prop} {quiet : Prop} {x : NetM α} {f : α → NetM β}
  {net net' : HebbianNetwork} {e : Fault} {v : α}

/-- What is `P` when a call returns or fails, and the call does not raise if `quiet`. -/
def Leaves (P : HebbianNetwork → Prop) (quiet : Prop) : EStateM.Result Fault HebbianNetwork α → Prop
  | .ok _ net' => P net'
  | .error e net' => P net' ∧ (quiet → ∀ what, e ≠ .runtimeError what)

/-- The call keeps `P`, and it does not raise if `quiet`. -/
def Keeps (P : HebbianNetwork → Prop) (quiet : Prop) (x : NetM α) : Prop :=
  ∀ net, P net → Leaves P quiet (x net)

theorem leaves_ok (hrun : x net = .ok v net') (hP : P net') : Leaves P quiet (x net) := by
  rw [hrun]
  exact hP

theorem leaves_error (hrun : x net = .error e net') (hP : P net')
    (hq : quiet → ∀ what, e ≠ .runtimeError what) : Leaves P quiet (x net) := by
  rw [hrun]
  exact ⟨hP, hq⟩

theorem Leaves.mono {quiet' : Prop} {o : EStateM.Result Fault HebbianNetwork α}
    (h : Leaves P quiet o) (hq : quiet' → quiet) : Leaves P quiet' o := by
  cases o with
  | ok v net => exact h
  | error e net => exact ⟨h.1, fun h' => h.2 (hq h')⟩

theorem keeps_pure (v : α) : Keeps P quiet (pure v : NetM α) := fun _ hP => hP

theorem Keeps.bind (hx : Keeps P quiet x) (hf : ∀ v, Keeps P quiet (f v)) :
    Keeps P quiet (x >>= f) := by
  intro net hP
  have hx := hx net hP
  rcases h : x net with ⟨v, net₁⟩ | ⟨e, net₁⟩ <;> rw [h] at hx
  · rw [bind_ok h]
    exact hf v net₁ hx
  · exact leaves_error (bind_error h) hx.1 hx.2

theorem Keeps.discard (hx : Keeps P quiet x) : Keeps P quiet (discard x) :=
  hx.bind fun _ => keeps_pure ()

theorem keeps_forM {call : α → NetM Unit} : ∀ (l : List α), (∀ a ∈ l, Keeps P quiet (call a)) →
    Keeps P quiet (l.forM call)
  | [], _ => keeps_pure ()
  | a :: l, h => (h a List.mem_cons_self).bind fun _ =>
      keeps_forM l fun b hb => h b (List.mem_cons_of_mem _ hb)

theorem forM_cons_ok {call : α → NetM Unit} {a : α} {l : List α} (h : call a net = .ok () net') :
    (a :: l).forM call net = l.forM call net' :=
  bind_ok h

theorem forM_append {call : α → NetM Unit} (l l' : List α) :
    (l ++ l').forM call = l.forM call >>= fun _ => l'.forM call :=
  List.forM_append

end NetM

/-! ## Tries that take handles -/

/-- A trie of keys of any bytes, of the size of a handle. -/
structure HandleTrie.Sized (t : HandleTrie Nat) : Prop where
  loose : t.Loose t.keySize True
  size : t.keySize = handleHashSize - 1

theorem sized_newHandleTrie : (newHandleTrie : HandleTrie Nat).Sized where
  loose := HandleTrie.new_wf.loose
  size := rfl

namespace HandleTrie.Sized

variable {α : Type} {t t' : HandleTrie Nat} {merge : α → α → α} {key : Key} {x : α} {h h' : Pool α}
  {r : Nat}

/-- `insert(key, new X(..))` raises on a key of the wrong length and on no other. -/
theorem insertNew_cases (l : t.Sized) (merge : α → α → α) (key : Key) (x : α) (h : Pool α) :
    (key.length ≠ handleHashSize - 1 ∧
      ∃ what, insertNew merge t key x h = .error (.runtimeError what)) ∨
    key.length = handleHashSize - 1 ∧
      ((∃ r t' h', insertNew merge t key x h = .ok (r, t', h') ∧ t'.Sized ∧
        Returns (objectValue merge) t key h.next (h.alloc x) (r, t', h')) ∨
      insertNew merge t key x h = .error .outOfBounds) := by
  by_cases hk : key.length = handleHashSize - 1
  · refine Or.inr ⟨hk, ?_⟩
    have hks : t.keySize ≠ 255 := by rw [l.size]; decide
    rcases insertNew_ends merge l.loose hks (hk.trans l.size.symm) x h with
      ⟨r, t', h', hins, hsize, l', hret⟩ | hins
    · exact Or.inl ⟨r, t', h', hins, ⟨l', hsize.trans l.size⟩, hret⟩
    · exact Or.inr hins
  · exact Or.inl ⟨hk, insertNew_raises (by rwa [l.size])⟩

/-- What is bound after a call was bound before, or is the new object. -/
theorem binds_of_returns (l : t.Sized)
    (hret : Returns (objectValue merge) t key h.next (h.alloc x) (r, t', h')) {k : Key} {b : Nat}
    (hb : t'.Binds k b) : t.Binds k b ∨ k = key ∧ b = h.next := by
  cases hret with
  | merged => exact Or.inl hb
  | added _ _ _ binds => exact ((binds k b).mp hb).imp_right And.right
  | wrapped hks => exact absurd (l.size.symm.trans hks) (by decide)

/-- `lookup` of a key of the right length returns. -/
theorem lookup_ok (l : t.Sized) (hkey : key.length = handleHashSize - 1) :
    ∃ o, t.lookup key = .ok o := by
  obtain ⟨o, ho, -⟩ := lookup_yields l.loose (hkey.trans l.size.symm)
  exact ⟨o, ho⟩

end HandleTrie.Sized

namespace HebbianNetwork

variable {net net' : HebbianNetwork} {k h handle : Key} {a b e : Nat}

/-- What holds of a network after any requests. -/
structure Loose (net : HebbianNetwork) : Prop where
  nodes : net.nodes.Sized
  neighbors : ∀ a, (net.node a).neighbors.Sized
  lt : ∀ k a, net.nodes.Binds k a → a < net.nodeObjects.next
  inj : ∀ k k' a, net.nodes.Binds k a → net.nodes.Binds k' a → k = k'

theorem not_binds_new : ¬ (newHandleTrie : HandleTrie Nat).Binds k a := by
  rintro ⟨p, x, hx, hl, -⟩
  obtain ⟨rfl, rfl⟩ := HandleTrie.nodeAt_new hx
  exact HandleTrie.new_wf.root_inner hl

theorem new_loose : new.Loose where
  nodes := sized_newHandleTrie
  neighbors := fun _ => sized_newHandleTrie
  lt := fun _ _ h => absurd h not_binds_new
  inj := fun _ _ _ h => absurd h not_binds_new

/-- Objects may change as long as the neighbors stay tries of handles. -/
theorem Loose.of_same (g : net.Loose) (hnodes : net'.nodes = net.nodes)
    (hnext : net'.nodeObjects.next = net.nodeObjects.next)
    (hneighbors : ∀ a, (net'.node a).neighbors.Sized) : net'.Loose where
  nodes := hnodes ▸ g.nodes
  neighbors := hneighbors
  lt := fun k a hb => by rw [hnext]; rw [hnodes] at hb; exact g.lt k a hb
  inj := fun k k' a hb hb' => by rw [hnodes] at hb hb'; exact g.inj k k' a hb hb'

/-- A change of one node object that keeps its neighbors. -/
theorem Loose.modifyNode (g : net.Loose) {f : Node → Node}
    (hf : ∀ n, (f n).neighbors = n.neighbors) : (net.modifyNode a f).Loose :=
  g.of_same rfl rfl fun b => by
    have hsame : ((net.modifyNode a f).node b).neighbors = (net.node b).neighbors :=
      Pool.modify_cell_proj net.nodeObjects a b f Node.neighbors hf
    rw [hsame]
    exact g.neighbors b

/-! ## The calls of a correlation -/

/-- How `add_node` ends, for a handle of any bytes. -/
theorem addNode_cases (g : net.Loose) (handle : Key) :
    (handle.length ≠ handleHashSize - 1 ∧
      ∃ what, addNode handle net = .error (.runtimeError what) net) ∨
    handle.length = handleHashSize - 1 ∧
      ((∃ a net', addNode handle net = .ok a net' ∧ net'.Loose ∧
        net' = { net with nodes := net'.nodes, nodeObjects := net'.nodeObjects } ∧
        HandleTrie.Returns (HandleTrie.objectValue Node.merge) net.nodes handle net.nodeObjects.next
          (net.nodeObjects.alloc Node.new) (a, net'.nodes, net'.nodeObjects)) ∨
      addNode handle net = .error .outOfBounds net) := by
  unfold addNode
  rcases g.nodes.insertNew_cases Node.merge handle Node.new net.nodeObjects with
    ⟨hk, what, hins⟩ | ⟨hk, ⟨a, nodes, objects, hins, l, hret⟩ | hins⟩
  · rw [hins]
    exact Or.inl ⟨hk, what, rfl⟩
  · rw [hins]
    refine Or.inr ⟨hk, Or.inl ⟨a, _, rfl, ?_, rfl, hret⟩⟩
    obtain ⟨hnext, hcells⟩ := hret.cells (P := fun n => n.neighbors.Sized)
      sized_newHandleTrie (fun y hy => hy) g.neighbors
    exact
      { nodes := l
        neighbors := hcells
        lt := fun k b hb => by
          show b < objects.next
          rw [hnext]
          rcases g.nodes.binds_of_returns hret hb with hb | ⟨-, rfl⟩
          · exact Nat.lt_succ_of_lt (g.lt k b hb)
          · exact Nat.lt_succ_self _
        inj := fun k k' b hb hb' => by
          rcases g.nodes.binds_of_returns hret hb with hb | ⟨rfl, rfl⟩ <;>
            rcases g.nodes.binds_of_returns hret hb' with hb' | ⟨rfl, hb'⟩
          · exact g.inj k k' b hb hb'
          · exact absurd (g.lt k _ hb) (hb' ▸ Nat.lt_irrefl _)
          · exact absurd (g.lt k' _ hb') (Nat.lt_irrefl _)
          · rfl }
  · rw [hins]
    exact Or.inr ⟨hk, Or.inr rfl⟩

theorem keeps_addNode {quiet : Prop} (hk : quiet → handle.length = handleHashSize - 1) :
    NetM.Keeps Loose quiet (addNode handle) := by
  intro net g
  rcases addNode_cases g handle with ⟨hne, what, hrun⟩ | ⟨-, ⟨a, net', hrun, g', -⟩ | hrun⟩
  · exact NetM.leaves_error hrun g fun hq => absurd (hk hq) hne
  · exact NetM.leaves_ok hrun g'
  · exact NetM.leaves_error hrun g fun _ _ => (by simp)

theorem keeps_lookupNode {quiet : Prop} (hk : quiet → handle.length = handleHashSize - 1) :
    NetM.Keeps Loose quiet (lookupNode handle) := by
  intro net g
  unfold lookupNode
  rcases hrun : net.nodes.lookup handle with e | o
  · refine ⟨g, fun hq => ?_⟩
    obtain ⟨o, ho⟩ := g.nodes.lookup_ok (hk hq)
    rw [ho] at hrun
    cases hrun
  · exact g

theorem keeps_insertEdge {quiet : Prop} (hk : quiet → handle.length = handleHashSize - 1) :
    NetM.Keeps Loose quiet (insertEdge a handle) := by
  intro net g
  unfold insertEdge
  rcases (g.neighbors a).insertNew_cases Edge.merge handle Edge.new net.edgeObjects with
    ⟨hne, what, hins⟩ | ⟨-, ⟨e, neighbors, objects, hins, l, -⟩ | hins⟩ <;> rw [hins]
  · exact ⟨g, fun hq => absurd (hk hq) hne⟩
  · refine g.of_same rfl rfl fun b => ?_
    show ((net.nodeObjects.modify a fun n => { n with neighbors := neighbors }).cell b).neighbors.Sized
    by_cases hb : b = a
    · rw [hb, Pool.modify_cell_self]
      exact l
    · rw [Pool.modify_cell_ne _ _ hb]
      exact g.neighbors b
  · exact ⟨g, fun _ _ => (by simp)⟩

theorem keeps_initEdge {quiet : Prop} {node2 : Option Nat} :
    NetM.Keeps Loose quiet (initEdge e a node2) := by
  intro net g
  by_cases he : (net.edge e).count = 1
  · have g' := g.modifyNode (a := a) (f := fun n => { n with arity := n.arity + 1 }) fun _ => rfl
    have hrun : initEdge e a node2 net = .ok () (net.setEnds e a node2) := if_pos he
    exact NetM.leaves_ok hrun (g'.of_same rfl rfl g'.neighbors)
  · have hrun : initEdge e a node2 net = .ok () net := if_neg he
    exact NetM.leaves_ok hrun g

theorem keeps_addAsymmetricEdge {quiet : Prop} {node1 node2 : Option Nat}
    (hk : quiet → k.length = handleHashSize - 1) (hh : quiet → handle.length = handleHashSize - 1) :
    NetM.Keeps Loose quiet (addAsymmetricEdge k handle node1 node2) := by
  have hrest : ∀ a, NetM.Keeps Loose quiet (do
      let edge ← insertEdge a handle
      initEdge edge a node2
      return edge) := fun a =>
    (keeps_insertEdge hh).bind fun _ => keeps_initEdge.bind fun _ => NetM.keeps_pure _
  unfold addAsymmetricEdge
  cases node1 with
  | none =>
    refine (keeps_lookupNode hk).bind fun o => ?_
    cases o with
    | none => exact fun net g => ⟨g, fun _ _ => (by simp)⟩
    | some a => exact hrest a
  | some a => exact hrest a

/-- A correlation raises only on handles of the wrong length. -/
theorem keeps_correlation (handleList : List Key) :
    NetM.Keeps Loose (∀ s ∈ handleList, s.length = handleHashSize - 1) (correlation handleList) := by
  refine (NetM.keeps_forM _ fun s hs => (keeps_addNode fun hl => hl s hs).discard).bind fun _ =>
    NetM.keeps_forM _ fun s1 h1 => (keeps_lookupNode fun hl => hl s1 h1).bind fun node1 =>
      NetM.keeps_forM _ fun s2 h2 => ?_
  split
  · exact (keeps_lookupNode fun hl => hl s2 h2).bind fun node2 =>
      (keeps_addAsymmetricEdge (fun hl => hl s1 h1) fun hl => hl s2 h2).discard.bind fun _ =>
        (keeps_addAsymmetricEdge (fun hl => hl s2 h2) fun hl => hl s1 h1).discard
  · exact NetM.keeps_pure ()

end HebbianNetwork

/-! ## Visits that do not raise -/

/-- The result is `I`, if there is one, and `Utils::error` is not called. -/
def Calm {α : Type} (I : α → Prop) (o : Except Fault α) : Prop :=
  (∀ v, o = .ok v → I v) ∧ ∀ what, o ≠ .error (.runtimeError what)

namespace Calm

variable {α β : Type} {I : α → Prop} {J : β → Prop} {x : Except Fault α} {f : α → Except Fault β}

theorem ok {v : α} (h : I v) : Calm I (.ok v) :=
  ⟨fun _ hv => Except.ok.inj hv ▸ h, fun _ h => (by cases h)⟩

theorem bind (hx : Calm I x) (hf : ∀ v, I v → Calm J (f v)) : Calm J (x >>= f) := by
  constructor
  · intro w hw
    obtain ⟨v, hv, hw⟩ := bind_eq_ok.mp hw
    exact (hf v (hx.1 v hv)).1 w hw
  · intro what hwhat
    rcases bind_eq_error.mp hwhat with h | ⟨v, hv, h⟩
    · exact hx.2 what h
    · exact (hf v (hx.1 v hv)).2 what h

theorem deref (p : Option Nat) : Calm (fun _ => True) (AttentionBroker.deref p) := by
  cases p with
  | none => exact ⟨fun _ h => (by cases h), fun _ h => (by cases h)⟩
  | some a => exact ok trivial

/-- A traversal of a trie of handles does not raise when no visit does. -/
theorem traverse {t : HandleTrie Nat} {visit : TrieNode Nat → α → Except Fault (Bool × α)}
    (l : t.Sized) (hvisit : ∀ n d, n.suffix.length = handleHashSize - 1 → I d →
      Calm (fun r => I r.2) (visit n d)) (locked : Bool) {data : α} (h : I data) :
    Calm I (t.traverse locked visit data) := by
  have hlen : ∀ p a, t.nodeAt p = some a → 0 < (t.node a).suffixStart →
      (t.node a).suffix.length = handleHashSize - 1 := fun p a ha hl =>
    ((l.loose.fits p a ha).size hl).trans l.size
  refine HandleTrie.traverse_keeps (I := I) ?_ ?_ (fun d hd => ok hd)
    ⟨fun _ h => (by cases h), fun _ h => (by cases h)⟩ locked h
  · intro p a d stop d' ha hl hd hv
    exact (hvisit _ d (hlen p a ha hl) hd).1 _ hv
  · intro p a d e ha hl hd hv
    refine ⟨fun _ h => (by cases h), fun what h => ?_⟩
    exact (hvisit _ d (hlen p a ha hl) hd).2 what (hv.trans (Except.error.inj h ▸ rfl))

end Calm

namespace TokenSpreader

open HebbianNetwork

variable {net net' : HebbianNetwork} {data data' : StimuliData} {request : HandleCount}
  {n : TrieNode Nat} {st : HebbianNetwork × StimuliData} {what : String}

theorem insertChanges_sized (l : data.importanceChanges.Sized) {key : Key}
    {rent wages : ImportanceType} (hrun : data.insertChanges key rent wages = .ok data') :
    data'.importanceChanges.Sized := by
  unfold StimuliData.insertChanges at hrun
  obtain ⟨⟨r, t', h'⟩, hins, hrun⟩ := bind_eq_ok.mp hrun
  obtain rfl := Except.ok.inj hrun
  rcases l.insertNew_cases ImportanceChanges.merge key { rent := rent, wages := wages }
      data.changes with ⟨-, what, h⟩ | ⟨-, ⟨r, t', h', h, l', -⟩ | h⟩ <;> rw [hins] at h
  · cases h
  · cases h
    exact l'
  · cases h

theorem insertChanges_calm (l : data.importanceChanges.Sized) {key : Key}
    (hk : key.length = handleHashSize - 1) (rent wages : ImportanceType) :
    Calm (fun data' => data'.importanceChanges.Sized) (data.insertChanges key rent wages) := by
  unfold StimuliData.insertChanges
  rcases l.insertNew_cases ImportanceChanges.merge key { rent := rent, wages := wages }
      data.changes with ⟨hne, -⟩ | ⟨-, ⟨r, t', h', hins, l', -⟩ | hins⟩
  · exact absurd hk hne
  · rw [hins]
    exact Calm.ok l'
  · rw [hins]
    exact ⟨fun _ h => (by cases h), fun _ h => (by cases h)⟩

theorem distributeWages_sized {totalToSpread : ImportanceType} (l : data.importanceChanges.Sized)
    (hrun : distributeWages request totalToSpread data = .ok data') :
    data'.importanceChanges.Sized := by
  unfold distributeWages at hrun
  split at hrun
  · cases hrun
  · revert l hrun
    generalize request.handleCount = entries
    induction entries generalizing data with
    | nil => exact fun l hrun => Except.ok.inj hrun ▸ l
    | cons entry entries ih =>
      intro l hrun
      rw [List.foldlM_cons] at hrun
      obtain ⟨data₁, hone, hrun⟩ := bind_eq_ok.mp hrun
      refine ih ?_ hrun
      unfold distributeWage at hone
      split at hone
      · exact insertChanges_sized l hone
      · exact Except.ok.inj hone ▸ l

/-- The first traversal changes only the data of the call. -/
theorem collectRent_calm (hn : n.suffix.length = handleHashSize - 1)
    (h : st.1 = net ∧ st.2.importanceChanges.Sized) :
    Calm (fun r => r.2.1 = net ∧ r.2.2.importanceChanges.Sized) (collectRent n st) := by
  obtain ⟨net', data⟩ := st
  obtain ⟨rfl, l⟩ := h
  refine (Calm.deref n.value).bind fun a _ => Calm.bind (insertChanges_calm ?_ hn _ _) fun _ l' => ?_
  · exact l
  · exact Calm.ok ⟨rfl, l'⟩

/-- What the visits of the other two traversals keep. -/
def Intact (st : HebbianNetwork × StimuliData) : Prop :=
  st.1.Loose ∧ st.2.importanceChanges.Sized

theorem consolidateRentAndWages_calm (hn : n.suffix.length = handleHashSize - 1) (h : Intact st) :
    Calm (fun r => Intact r.2) (consolidateRentAndWages n st) := by
  obtain ⟨net, data⟩ := st
  obtain ⟨g, l⟩ := h
  obtain ⟨o, ho⟩ := l.lookup_ok hn
  refine (Calm.deref n.value).bind fun a _ => ?_
  show Calm _ (data.importanceChanges.lookup n.suffix >>= _)
  rw [ho]
  exact (Calm.deref o).bind fun c _ => Calm.ok ⟨g.modifyNode fun _ => rfl, l⟩

theorem weight_calm (net : HebbianNetwork) (edge : Edge) :
    Calm (fun _ => True) (weight net edge) :=
  (Calm.deref edge.node1).bind fun _ _ => Calm.ok trivial

theorem sumWeights_calm (h : Intact st) : Calm (fun r => Intact r.2) (sumWeights n st) :=
  (Calm.deref n.value).bind fun _ _ => (weight_calm st.1 _).bind fun _ _ => Calm.ok h

theorem deliverStimulus_calm (h : Intact st) : Calm (fun r => Intact r.2) (deliverStimulus n st) :=
  (Calm.deref n.value).bind fun _ _ => (weight_calm st.1 _).bind fun _ _ =>
    (Calm.deref _).bind fun _ _ => Calm.ok ⟨h.1.modifyNode fun _ => rfl, h.2⟩

theorem consolidateStimulus_calm (h : Intact st) :
    Calm (fun r => Intact r.2) (consolidateStimulus n st) := by
  obtain ⟨net, data⟩ := st
  refine (Calm.deref n.value).bind fun a _ => ?_
  have l := h.1.neighbors a
  have h₀ : Intact (net, { data with
      toSpread := (net.node a).stimuliToSpread, sumWeights := 0 }) := h
  refine (Calm.traverse l (fun _ _ _ h => sumWeights_calm h) true h₀).bind ?_
  rintro ⟨net₁, data₁⟩ h₁
  refine (Calm.traverse l (fun _ _ _ h => deliverStimulus_calm h) true h₁).bind ?_
  rintro ⟨net₂, data₂⟩ h₂
  exact Calm.ok ⟨h₂.1.modifyNode fun _ => rfl, h₂.2⟩

/-! ## A stimulus that raises -/

theorem visitNodes_calm {I : HebbianNetwork × StimuliData → Prop}
    {visit : TrieNode Nat → HebbianNetwork × StimuliData → Visit} (g : net.Loose)
    (hvisit : ∀ n st, n.suffix.length = handleHashSize - 1 → I st →
      Calm (fun r => I r.2) (visit n st)) (data : StimuliData) (h : I (net, data)) (locked : Bool) :
    (∃ data' net', visitNodes locked visit data net = .ok data' net' ∧ I (net', data')) ∨
    ∃ e, visitNodes locked visit data net = .error e net ∧ ∀ what, e ≠ .runtimeError what := by
  have hcalm := Calm.traverse g.nodes hvisit locked h
  unfold visitNodes
  rcases hrun : net.nodes.traverse locked visit (net, data) with e | ⟨net', data'⟩
  · exact Or.inr ⟨e, rfl, fun what he => hcalm.2 what (he ▸ hrun)⟩
  · exact Or.inl ⟨data', net', rfl, hcalm.1 _ hrun⟩

/-- How `distribute_wages` ends: the tokens are taken in any case. -/
theorem distributeWagesPhase_cases (request : HandleCount) (l : data.importanceChanges.Sized)
    (net : HebbianNetwork) :
    (∃ data', distributeWagesPhase request data net
      = .ok data' { net with tokensToDistribute := 0 } ∧ data'.importanceChanges.Sized) ∨
    ∃ e, distributeWagesPhase request data net = .error e { net with tokensToDistribute := 0 } := by
  have htake : HebbianNetwork.alienateTokens net
      = .ok net.tokensToDistribute { net with tokensToDistribute := 0 } := rfl
  unfold distributeWagesPhase
  rw [NetM.bind_ok htake]
  rcases hrun : distributeWages request (net.tokensToDistribute + data.totalRent) data with e | data'
  · exact Or.inr ⟨e, rfl⟩
  · exact Or.inl ⟨data', rfl, distributeWages_sized l hrun⟩

/-- How a stimulus ends: what it leaves when it raises is the network without its tokens. -/
theorem spreadStimuli_cases (request : HandleCount) (g : net.Loose) :
    (∃ net', spreadStimuli request net = .ok () net' ∧ net'.Loose) ∨
    ∃ e net', spreadStimuli request net = .error e net' ∧ net'.Loose ∧
      ∀ what, e = .runtimeError what → net' = { net with tokensToDistribute := 0 } := by
  have g' : { net with tokensToDistribute := 0 }.Loose := g.of_same rfl rfl g.neighbors
  have hstart : collectRentPhase net = visitNodes true collectRent (StimuliData.init net) net := rfl
  unfold spreadStimuli
  rcases visitNodes_calm (I := fun st => st.1 = net ∧ st.2.importanceChanges.Sized) g
      (fun n st hn h => collectRent_calm hn h) (StimuliData.init net) ⟨rfl, sized_newHandleTrie⟩ true
    with ⟨data₁, net₁, hrun₁, rfl, l₁⟩ | ⟨e, hrun₁, he⟩
  · rw [NetM.bind_ok (hstart.trans hrun₁)]
    rcases distributeWagesPhase_cases request l₁ net₁ with ⟨data₂, hrun₂, l₂⟩ | ⟨e, hrun₂⟩
    · rw [NetM.bind_ok hrun₂]
      rcases visitNodes_calm g' (fun n st hn h => consolidateRentAndWages_calm hn h) data₂ ⟨g', l₂⟩ true
        with ⟨data₃, net₃, hrun₃, g₃, l₃⟩ | ⟨e, hrun₃, he⟩
      · unfold consolidatePhase
        rw [NetM.bind_ok hrun₃]
        rcases visitNodes_calm g₃ (fun n st _ h => consolidateStimulus_calm h) data₃ ⟨g₃, l₃⟩ true
          with ⟨data₄, net₄, hrun₄, g₄, -⟩ | ⟨e, hrun₄, he⟩
        · exact Or.inl ⟨net₄, NetM.discard_ok hrun₄, g₄⟩
        · exact Or.inr ⟨e, net₃, NetM.bind_error hrun₄, g₃, fun what hw => absurd hw (he what)⟩
      · exact Or.inr ⟨e, _, NetM.bind_error hrun₃, g', fun what hw => absurd hw (he what)⟩
    · exact Or.inr ⟨e, _, NetM.bind_error hrun₂, g', fun _ _ => rfl⟩
  · exact Or.inr ⟨e, net, NetM.bind_error (hstart.trans hrun₁), g, fun what hw => absurd hw (he what)⟩

theorem keeps_spreadStimuli (request : HandleCount) :
    NetM.Keeps Loose False (spreadStimuli request) := by
  intro net g
  rcases spreadStimuli_cases request g with ⟨net', hrun, g'⟩ | ⟨e, net', hrun, g', -⟩
  · exact NetM.leaves_ok hrun g'
  · exact NetM.leaves_error hrun g' False.elim

end TokenSpreader

/-! ## Networks after any requests -/

namespace HebbianNetwork

variable {net net' : HebbianNetwork} {r : Request}

/--
One request. A request that raises leaves the network it had reached. There is no network after
a string was read out of its bounds or a NULL pointer was followed.
-/
def receive (net : HebbianNetwork) (r : Request) : Option HebbianNetwork :=
  match r.call net with
  | .ok _ net' => some net'
  | .error (.runtimeError _) net' => some net'
  | .error _ _ => none

/-- A network that any requests lead to. -/
def Served (net : HebbianNetwork) : Prop :=
  ∃ requests : List Request, run receive new requests = some net

theorem Loose.receive (g : net.Loose) (hr : net.receive r = some net') : net'.Loose := by
  have hcall : NetM.Leaves Loose False (r.call net) := by
    cases r with
    | correlation handleList => exact (keeps_correlation handleList net g).mono False.elim
    | stimulus handleCount => exact TokenSpreader.keeps_spreadStimuli handleCount net g
  unfold HebbianNetwork.receive at hr
  rcases hrun : r.call net with ⟨v, net₁⟩ | ⟨e, net₁⟩ <;> rw [hrun] at hr hcall
  · cases hr
    exact hcall
  · cases e with
    | runtimeError what =>
      cases hr
      exact hcall.1
    | outOfBounds => cases hr
    | nullPointer => cases hr
    | diverges => cases hr

/-- **What any requests keep.** -/
theorem Served.loose (h : net.Served) : net.Loose := by
  obtain ⟨requests, hrun⟩ := h
  exact run_preserves Loose (fun _ _ _ g hr => g.receive hr) hrun new_loose

theorem receive_of_process (hp : net.process r = some net') : net.receive r = some net' := by
  unfold process at hp
  split at hp
  · rename_i hrun
    cases hp
    unfold HebbianNetwork.receive
    rw [hrun]
  · cases hp

/-- Complete requests are some of these. -/
theorem Reachable.served (h : net.Reachable) : net.Served := by
  obtain ⟨requests, -, hrun⟩ := h
  refine ⟨requests, ?_⟩
  revert hrun
  generalize new = start
  induction requests generalizing start with
  | nil => exact id
  | cons r rs ih =>
    intro hrun
    rw [run] at hrun ⊢
    obtain ⟨net₁, hp, hrun⟩ := Option.bind_eq_some_iff.mp hrun
    rw [receive_of_process hp, Option.bind_some]
    exact ih net₁ hrun

end HebbianNetwork

end AttentionBroker
