import AttentionBroker.Hebbian.ConcurrentCounting

/-!
# Arities that workers raise at the same time

`node1->arity += 1` is a read and a write without a lock, so that updates can be lost. A worker that
is between its test of a new edge and the write of the arity has a claim on its node. `Lagging` says
that an arity, and every arity that a worker is about to write, leaves room for all the claims.
So an arity is at most the number of neighbors in every state of every run, and so is
`largest_arity`.
-/

namespace AttentionBroker

open Infra HebbianNetwork

/-! ## Claims on a node -/

namespace AddCall

variable {g g' : Graph Key} {call : AddCall} {stage : AddStage} {k : Key}

/-- The claim of a call on a node. -/
def claimOn (g : Graph Key) (k : Key) (call : AddCall) : Nat :=
  if call.handle1 = k ∧ call.claims g = true then 1 else 0

/-- The call is about to write an arity of the node. -/
def Writes (k : Key) (v : UInt32) (call : AddCall) : Prop :=
  call.handle1 = k ∧ call.stage = .writingArity v

theorem claimOn_called (h : call.stage = .called) : call.claimOn g k = 0 := by
  simp [claimOn, claims, h]

/-- Claims depend on the counts of edges only. -/
theorem claimOn_congr (h : g'.edgeCount = g.edgeCount) : call.claimOn g' k = call.claimOn g k := by
  unfold claimOn claims
  rw [h]

/-- A new count of an edge that has one ends a claim and begins none. -/
theorem claimOn_insertEdge_le {a b : Key}
    (hpos : ∀ e, call.stage = .inserted e → g.edgeCount call.handle1 call.handle2 ≠ 0) :
    call.claimOn (g.insertEdge a b) k ≤ call.claimOn g k := by
  have hclaims : call.claims (g.insertEdge a b) = true → call.claims g = true := by
    unfold claims
    cases hs : call.stage with
    | inserted e =>
      simp only [decide_eq_true_eq]
      have hcount := Graph.addEdge_edgeCount g (a, b) call.handle1 call.handle2
      rw [Graph.addEdge, Graph.initEdge_edgeCount] at hcount
      rw [hcount]
      split
      case isTrue hp => exact fun h => absurd (by simpa using h) (hpos e hs)
      case isFalse => exact fun h => by simpa using h
    | _ => exact id
  unfold claimOn
  split
  case isTrue h => rw [if_pos ⟨h.1, hclaims h.2⟩]
  case isFalse => exact Nat.zero_le _

theorem card_neighbors_insertEdge (g : Graph Key) (a b : Key) :
    ((g.insertEdge a b).neighbors k).card
      = (g.neighbors k).card + if k = a ∧ b ∉ g.neighbors a then 1 else 0 := by
  by_cases hk : k = a
  · subst hk
    by_cases hb : b ∈ g.neighbors k
    · simp [Graph.insertEdge, hb]
    · simp [Graph.insertEdge, hb]
  · simp [Graph.insertEdge, hk]

/-- **A call takes a claim on a node no faster than the node gets neighbors.** -/
theorem Moves.claimOn_le (h : call.Moves g g' stage)
    (hpos : ∀ a b, b ∈ g.neighbors a → g.edgeCount a b ≠ 0) :
    ({ call with stage := stage } : AddCall).claimOn g' k + (g.neighbors k).card
      ≤ call.claimOn g k + (g'.neighbors k).card := by
  cases h with
  | silent hs hclaims hwriting =>
    refine Nat.add_le_add_right ?_ _
    unfold claimOn
    split
    case isTrue h => rw [if_pos ⟨h.1, hclaims h.2⟩]
    case isFalse => exact Nat.zero_le _
  | @inserted e hs =>
    rw [card_neighbors_insertEdge]
    by_cases hb : call.handle2 ∈ g.neighbors call.handle1
    · have hcount := hpos _ _ hb
      have hzero : ({ call with stage := .inserted e } : AddCall).claimOn
          (g.insertEdge call.handle1 call.handle2) k = 0 := by
        unfold claimOn
        refine if_neg fun h => hcount ?_
        have h1 := h.2
        simpa [claims, Graph.insertEdge] using h1
      rw [hzero]
      omega
    · by_cases hk : k = call.handle1
      · rw [if_pos ⟨hk, hb⟩]
        have hle : ({ call with stage := .inserted e } : AddCall).claimOn
            (g.insertEdge call.handle1 call.handle2) k ≤ 1 := by
          unfold claimOn
          split <;> omega
        omega
      · have hzero : ({ call with stage := .inserted e } : AddCall).claimOn
            (g.insertEdge call.handle1 call.handle2) k = 0 := if_neg fun h => hk h.1.symm
        rw [hzero]
        omega
  | loaded hs =>
    refine Nat.add_le_add_right ?_ _
    simp [claimOn, claims, hs]
  | stored hs => simp [claimOn, claims]
  | raised hs => simp [claimOn, claims]

/-- **A call writes at most 1 more than it read**, and gives up its claim for it. -/
theorem Moves.writes (h : call.Moves g g' stage)
    (hpos : ∀ a b, b ∈ g.neighbors a → g.edgeCount a b ≠ 0) {v : UInt32}
    (hv : v = g'.arity k ∨ ({ call with stage := stage } : AddCall).Writes k v) :
    ∃ u, (u = g.arity k ∨ call.Writes k u) ∧
      v.toNat + ({ call with stage := stage } : AddCall).claimOn g' k + (g.neighbors k).card
        ≤ u.toNat + call.claimOn g k + (g'.neighbors k).card := by
  have hle := h.claimOn_le (k := k) hpos
  cases h with
  | silent hs hclaims hwriting =>
    rcases hv with rfl | ⟨-, hv⟩
    · exact ⟨_, .inl rfl, by omega⟩
    · exact absurd hv (hwriting v)
  | inserted hs =>
    obtain rfl : v = g.arity k := hv.resolve_right (by simp [Writes])
    exact ⟨_, .inl rfl, by omega⟩
  | loaded hs =>
    refine ⟨g.arity k, .inl rfl, ?_⟩
    rcases hv with rfl | ⟨hk, hv⟩
    · omega
    · obtain rfl : call.handle1 = k := hk
      obtain rfl := AddStage.writingArity.inj hv
      omega
  | @stored u hs =>
    obtain rfl := hv.resolve_right (by simp [Writes])
    by_cases hk : k = call.handle1
    · subst hk
      refine ⟨u, .inr ⟨rfl, hs⟩, ?_⟩
      have hzero : ({ call with stage := .locking } : AddCall).claimOn
          { g with arity := Function.update g.arity call.handle1 (u + 1) } call.handle1 = 0 := by
        simp [claimOn, claims]
      have hone : call.claimOn g call.handle1 = 1 := by simp [claimOn, claims, hs]
      have hsucc : (u + 1).toNat ≤ u.toNat + 1 := by
        rw [UInt32.toNat_add]
        exact Nat.mod_le _ _
      show (Function.update g.arity call.handle1 (u + 1) call.handle1).toNat + _ + _
        ≤ _ + _ + (g.neighbors call.handle1).card
      rw [Function.update_self, hzero, hone]
      omega
    · refine ⟨g.arity k, .inl rfl, ?_⟩
      show (Function.update g.arity call.handle1 (u + 1) k).toNat + _ + _ ≤ _
      rw [Function.update_of_ne hk]
      omega
  | raised hs =>
    obtain rfl : v = g.arity k := hv.resolve_right (by simp [Writes])
    exact ⟨_, .inl rfl, by omega⟩

end AddCall

namespace CorrelationWorker

variable {g g' : Graph Key} {w w' : CorrelationWorker} {k : Key}

/-- The claims of a worker on a node. -/
def claimsOn (g : Graph Key) (k : Key) (w : CorrelationWorker) : Nat :=
  (w.calls.map (AddCall.claimOn g k)).sum

/-- The worker is about to write an arity of the node. -/
def Writes (k : Key) (v : UInt32) (w : CorrelationWorker) : Prop :=
  ∃ call ∈ w.calls, call.Writes k v

theorem sum_claimOn_called {calls : List AddCall} (h : ∀ call ∈ calls, call.stage = .called) :
    (calls.map (AddCall.claimOn g k)).sum = 0 := by
  refine List.sum_eq_zero fun n hn => ?_
  obtain ⟨call, hc, rfl⟩ := List.mem_map.mp hn
  exact AddCall.claimOn_called (h call hc)

theorem not_writes_called {calls : List AddCall} (h : ∀ call ∈ calls, call.stage = .called)
    {v : UInt32} : ¬ ∃ call ∈ calls, call.Writes k v := by
  rintro ⟨call, hc, -, hs⟩
  rw [h call hc] at hs
  cases hs

/-- **A worker takes claims on a node no faster than the node gets neighbors, and writes at most 1
more than it read, for which it gives up a claim.** -/
theorem Moves.writes (h : w.Moves g g' w') (hnext : ∀ call ∈ w.calls.tail, call.stage = .called)
    (hpos : ∀ a b, b ∈ g.neighbors a → g.edgeCount a b ≠ 0) :
    w'.claimsOn g' k + (g.neighbors k).card ≤ w.claimsOn g k + (g'.neighbors k).card ∧
    ∀ v, v = g'.arity k ∨ w'.Writes k v → ∃ u, (u = g.arity k ∨ w.Writes k u) ∧
      v.toNat + w'.claimsOn g' k + (g.neighbors k).card
        ≤ u.toNat + w.claimsOn g k + (g'.neighbors k).card := by
  cases h with
  | loop hc hcalled hg =>
    have hzero : w'.claimsOn g' k = 0 := sum_claimOn_called hcalled
    have hsame : g'.arity = g.arity ∧ g'.neighbors = g.neighbors := by
      rcases hg with rfl | ⟨x, rfl⟩
      · exact ⟨rfl, rfl⟩
      · exact ⟨rfl, rfl⟩
    rw [hzero, hsame.1, hsame.2]
    refine ⟨by omega, fun v hv => ⟨v, ?_, by omega⟩⟩
    exact .inl (hv.resolve_right (not_writes_called hcalled))
  | @call _ _ call calls stage hc hc' hmoves =>
    rw [hc] at hnext
    have htail : ∀ g : Graph Key, (calls.map (AddCall.claimOn g k)).sum = 0 := fun g =>
      sum_claimOn_called hnext
    have hclaims : w.claimsOn g k = call.claimOn g k := by simp [claimsOn, hc, htail]
    have hclaims' : w'.claimsOn g' k
        = ({ call with stage := stage } : AddCall).claimOn g' k := by simp [claimsOn, hc', htail]
    rw [hclaims, hclaims']
    refine ⟨hmoves.claimOn_le hpos, fun v hv => ?_⟩
    have hv' : v = g'.arity k ∨ ({ call with stage := stage } : AddCall).Writes k v := by
      refine hv.imp_right fun ⟨c, hmem, hwrites⟩ => ?_
      rw [hc'] at hmem
      rcases List.mem_cons.mp hmem with rfl | hmem
      · exact hwrites
      · exact absurd ⟨c, hmem, hwrites⟩ (not_writes_called hnext)
    obtain ⟨u, hu, hle⟩ := hmoves.writes hpos hv'
    exact ⟨u, hu.imp_right fun h => ⟨call, by rw [hc]; exact List.mem_cons_self, h⟩, hle⟩
  | @next _ call hc hs =>
    have hclaims : w.claimsOn g k = w'.claimsOn g k := by
      simp [claimsOn, hc, AddCall.claimOn, AddCall.claims, hs]
    rw [hclaims]
    refine ⟨Nat.le_refl _, fun v hv =>
      ⟨v, hv.imp_right fun ⟨c, hmem, hwrites⟩ => ?_, Nat.le_refl _⟩⟩
    exact ⟨c, by rw [hc]; exact List.mem_cons_of_mem _ hmem, hwrites⟩

/-- The claims of a worker do not grow while another one moves. -/
theorem Moves.claimsOn_other (h : w.Moves g g' w') {x : CorrelationWorker}
    (hpos : ∀ call ∈ x.calls, ∀ e, call.stage = .inserted e →
      g.edgeCount call.handle1 call.handle2 ≠ 0) : x.claimsOn g' k ≤ x.claimsOn g k := by
  have hsame : g'.edgeCount = g.edgeCount → x.claimsOn g' k ≤ x.claimsOn g k := fun h =>
    List.sum_le_sum fun call _ => Nat.le_of_eq (AddCall.claimOn_congr h)
  cases h with
  | loop hc hcalled hg =>
    refine hsame ?_
    rcases hg with rfl | ⟨x, rfl⟩
    · rfl
    · rfl
  | next => exact hsame rfl
  | call hc hc' hmoves =>
    cases hmoves with
    | inserted => exact List.sum_le_sum fun call hc => AddCall.claimOn_insertEdge_le (hpos call hc)
    | silent | loaded | stored | raised => exact hsame rfl

/-- `largest_arity` becomes an arity, if it changes. -/
theorem Moves.largestArity (h : w.Moves g g' w') :
    g'.largestArity = g.largestArity ∨ ∃ k, g'.largestArity = g.arity k := by
  cases h with
  | loop hc hcalled hg =>
    rcases hg with rfl | ⟨x, rfl⟩
    · exact .inl rfl
    · exact .inl rfl
  | next => exact .inl rfl
  | call hc hc' hmoves =>
    cases hmoves with
    | raised => exact .inr ⟨_, rfl⟩
    | silent | loaded | stored | inserted => exact .inl rfl

end CorrelationWorker

namespace HebbianNetwork

variable {net net' : HebbianNetwork} {ns : List Key} {ps ps' : List (Key × Key)}

/-- What a step adds leaves edges that are counted, and counters that do not wrap around. -/
theorem Adds.counted (h : Adds net net' ns ps) (wf : net.Wf) (wf' : net'.Wf)
    (hpos : ∀ a b, b ∈ net.graph.neighbors a → net.graph.edgeCount a b ≠ 0)
    (hroom : ∀ p : Key × Key,
      (net.graph.edgeCount p.1 p.2).toNat + Graph.added (ps ++ ps') p < 2 ^ 32) :
    (∀ a, (net.graph.neighbors a).card ≤ (net'.graph.neighbors a).card) ∧
    (∀ a b, b ∈ net'.graph.neighbors a → net'.graph.edgeCount a b ≠ 0) ∧
    ∀ p : Key × Key, (net'.graph.edgeCount p.1 p.2).toNat + Graph.added ps' p < 2 ^ 32 := by
  cases h with
  | nothing h =>
    rw [h.sameCounts.neighbors, h.sameCounts.edgeCount]
    exact ⟨fun _ => Nat.le_refl _, hpos, hroom⟩
  | node h =>
    rw [h.graph wf wf']
    exact ⟨fun _ => Nat.le_refl _, hpos, hroom⟩
  | @edge k h' e hi =>
    rw [hi.graph wf wf']
    have hcount : ∀ a b, (net.graph.insertEdge k h').edgeCount a b
        = net.graph.edgeCount a b + if (a, b) = (k, h') then 1 else 0 := fun a b => by
      have hadd := Graph.addEdge_edgeCount net.graph (k, h') a b
      rwa [Graph.addEdge, Graph.initEdge_edgeCount] at hadd
    have hsucc : (net.graph.edgeCount k h' + 1).toNat = (net.graph.edgeCount k h').toNat + 1 := by
      have hr := hroom (k, h')
      rw [List.singleton_append, Graph.added_cons_self, ← Nat.add_assoc] at hr
      rw [UInt32.toNat_add]
      exact Nat.mod_eq_of_lt (Nat.lt_of_le_of_lt (Nat.add_le_add_right (Nat.le_add_right _ _) 1) hr)
    refine ⟨fun a => ?_, fun a b hb => ?_, fun p => ?_⟩
    · rw [AddCall.card_neighbors_insertEdge]
      exact Nat.le_add_right _ _
    · rw [hcount]
      by_cases hp : (a, b) = (k, h')
      · obtain ⟨rfl, rfl⟩ := Prod.mk.inj hp
        rw [if_pos rfl]
        intro hzero
        rw [hzero] at hsucc
        cases hsucc
      · rw [if_neg hp, UInt32.add_zero]
        have hmem := Graph.addEdge_neighbors (a := a) (b := b) net.graph (k, h')
        rw [Graph.addEdge, Graph.initEdge_neighbors] at hmem
        exact hpos a b ((hmem.mp hb).resolve_right hp)
    · have hr := hroom p
      rw [Graph.added_append] at hr
      rw [hcount]
      by_cases hp : p = (k, h')
      · subst hp
        rw [if_pos rfl, hsucc]
        rw [Graph.added_cons_self, Nat.add_comm _ 1, ← Nat.add_assoc] at hr
        refine Nat.lt_of_le_of_lt (Nat.add_le_add_right ?_ _) hr
        exact Nat.add_le_add_left (Nat.le_add_right 1 _) _
      · rw [if_neg hp, UInt32.add_zero]
        exact Nat.lt_of_le_of_lt (Nat.add_le_add_left (Nat.le_add_left _ _) _) hr

end HebbianNetwork

/-! ## All workers -/

namespace CorrelationThreads

variable {s s' : CorrelationThreads} {g : Graph Key} {w : CorrelationWorker} {i : Nat}

/-- The claims on a node. -/
def claimsOn (s : CorrelationThreads) (k : Key) : Nat :=
  (s.locals.map (CorrelationWorker.claimsOn s.shared.net.graph k)).sum

/-- What every turn keeps. An arity of a node, stored or about to be written, and the claims on the
node are no more than its neighbors. -/
structure Lagging (s : CorrelationThreads) : Prop where
  arity : ∀ k v, v = s.shared.net.graph.arity k ∨ (∃ w ∈ s.locals, w.Writes k v) →
    v.toNat + claimsOn s k ≤ (s.shared.net.graph.neighbors k).card
  largestArity : ∃ k, s.shared.net.largestArity.toNat ≤ (s.shared.net.graph.neighbors k).card
  counted : ∀ a b, b ∈ s.shared.net.graph.neighbors a → s.shared.net.graph.edgeCount a b ≠ 0
  room : ∀ p : Key × Key, (s.shared.net.graph.edgeCount p.1 p.2).toNat +
    Graph.added (s.locals.flatMap CorrelationWorker.pairsToAdd) p < 2 ^ 32
  ends : s.shared.net.EndsOrNull

namespace Lagging

theorem arity_le (l : Lagging s) (k : Key) :
    (s.shared.net.graph.arity k).toNat ≤ (s.shared.net.graph.neighbors k).card :=
  Nat.le_of_add_right_le (l.arity k _ (.inl rfl))

/-- An edge that a worker has inserted is counted. -/
theorem inserted_counted (l : Lagging s) (c : Counting g s) {x : CorrelationWorker}
    (hx : x ∈ s.locals) {call : AddCall} (hcall : call ∈ x.calls) {e : Nat}
    (hs : call.stage = .inserted e) :
    s.shared.net.graph.edgeCount call.handle1 call.handle2 ≠ 0 := by
  refine l.counted _ _ (c.wf.mem_neighbors.mpr ⟨e, ?_⟩)
  exact ((c.place x hx).calls call hcall).edge e (by rw [hs]; rfl)

/-- **A turn keeps the arities behind the neighbors.** -/
theorem turn (l : Lagging s) (c : Counting g s) {w' : CorrelationWorker} {sh : SharedNetwork}
    (hw : s.locals[i]? = some w) (hsteps : w.Steps s.shared sh w') :
    Lagging { shared := sh, locals := s.locals.set i w' } := by
  obtain ⟨wf', hmoves, hends, ⟨ns, ps, hadds, -, hps⟩, -, -, -⟩ := hsteps
  have hroom := l.room
  simp only [Graph.added_perm ((Parties.perm_others hw).flatMap_right _), List.flatMap_cons, hps,
    List.append_assoc] at hroom
  obtain ⟨hcard, hcounted, hroom'⟩ := hadds.counted c.wf wf' l.counted hroom
  have hwrites := fun k => hmoves.writes (k := k) (c.place w (Parties.mem_of_get hw)).next l.counted
  -- the claims of the others do not grow
  have hothers : ∀ k, ((s.others i).map (CorrelationWorker.claimsOn sh.net.graph k)).sum
      ≤ ((s.others i).map (CorrelationWorker.claimsOn s.shared.net.graph k)).sum := fun k => by
    refine List.sum_le_sum fun x hx => hmoves.claimsOn_other fun call hcall e he => ?_
    have hmem : x ∈ s.locals := (Parties.perm_others hw).mem_iff.mpr (List.mem_cons_of_mem _ hx)
    exact l.inserted_counted c hmem hcall he
  have hclaims : ∀ k, claimsOn s k = w.claimsOn s.shared.net.graph k +
      ((s.others i).map (CorrelationWorker.claimsOn s.shared.net.graph k)).sum := fun k =>
    Parties.sum_locals _ hw
  have hclaims' : ∀ k, claimsOn { shared := sh, locals := s.locals.set i w' } k
      = w'.claimsOn sh.net.graph k +
        ((s.others i).map (CorrelationWorker.claimsOn sh.net.graph k)).sum := fun k =>
    Parties.sum_set_others _ hw w'
  refine ⟨fun k v hv => ?_, ?_, hcounted, fun p => ?_, hends l.ends⟩
  · obtain ⟨hle, hown⟩ := hwrites k
    have hset := Parties.exists_set hw w' (P := CorrelationWorker.Writes k v)
    have hall := Parties.exists_locals hw (P := CorrelationWorker.Writes k v)
    have hrest := hothers k
    rw [hclaims']
    show _ ≤ (sh.net.graph.neighbors k).card
    by_cases hv' : v = sh.net.graph.arity k ∨ w'.Writes k v
    · obtain ⟨u, hu, hstep⟩ := hown v hv'
      have hold := l.arity k u (hu.imp_right fun h => ⟨w, Parties.mem_of_get hw, h⟩)
      rw [hclaims] at hold
      omega
    · -- another worker is about to write it
      have hother : ∃ x ∈ s.others i, x.Writes k v := by
        rcases hv with hv | hv
        · exact absurd (.inl hv) hv'
        · exact (hset.mp hv).resolve_left fun h => hv' (.inr h)
      have hold := l.arity k v (.inr (hall.mpr (.inr hother)))
      rw [hclaims] at hold
      omega
  · rcases hmoves.largestArity with hsame | ⟨k, hk⟩
    · obtain ⟨k, hk⟩ := l.largestArity
      refine ⟨k, ?_⟩
      show sh.net.graph.largestArity.toNat ≤ _
      rw [hsame]
      exact hk.trans (hcard k)
    · refine ⟨k, ?_⟩
      show sh.net.graph.largestArity.toNat ≤ _
      rw [hk]
      exact (l.arity_le k).trans (hcard k)
  · rw [Graph.added_perm ((Parties.set_perm_others hw w').flatMap_right _)]
    exact hroom' p

theorem start {requests : List (List (List Key))}
    (hpairs : ∀ a b, a ≠ b → cooccurrences requests.flatten a b < 2 ^ 32) :
    Lagging (CorrelationThreads.start new requests) := by
  have hempty : (CorrelationThreads.start new requests).shared.net.graph = Graph.empty := graph_new
  have hpending :
      (CorrelationThreads.start new requests).locals.flatMap CorrelationWorker.pairsToAdd
        = Graph.additions requests.flatten := Counting.pairs_start requests
  refine ⟨fun k v hv => ?_, ⟨[], Nat.zero_le _⟩, ?_, fun p => ?_, fun k h e he => ?_⟩
  · have hzero : claimsOn (CorrelationThreads.start new requests) k = 0 := by
      refine List.sum_eq_zero fun n hn => ?_
      obtain ⟨w, hw, rfl⟩ := List.mem_map.mp hn
      obtain ⟨ls, -, rfl⟩ := List.mem_map.mp hw
      rfl
    rcases hv with rfl | ⟨w, hw, call, hcall, -⟩
    · rw [hzero, hempty]
      exact Nat.zero_le _
    · obtain ⟨ls, -, rfl⟩ := List.mem_map.mp hw
      exact absurd hcall List.not_mem_nil
  · rw [hempty]
    exact fun _ _ hb => absurd hb (Finset.notMem_empty _)
  · obtain ⟨a, b⟩ := p
    rw [hempty, hpending, Graph.added_additions]
    show 0 + _ < 2 ^ 32
    by_cases hab : a = b
    · rw [if_pos hab]
      decide
    · rw [if_neg hab, Nat.zero_add]
      exact hpairs a b hab
  · exact absurd ((edgeRef_new k h).symm.trans he) nofun

end Lagging

/--
**Races on arities only lose updates.**

As long as no counter of an edge can wrap around, in every state of every interleaving the arity of
a node is at most the number of its neighbors, `largest_arity` at most the largest number of
neighbors, and an end of an edge that is not NULL points to the node of its handle.
-/
theorem arities_lag {requests : List (List (List Key))}
    (hreqs : ∀ ls ∈ requests, ∀ l ∈ ls, ∀ k ∈ l, IsHandle k)
    (hpairs : ∀ a b, a ≠ b → cooccurrences requests.flatten a b < 2 ^ 32) {schedule : List Nat}
    (hrun : run (Parties.step CorrelationWorker.advance) (start new requests) schedule = some s) :
    (∀ k a, s.shared.net.nodeRef k = some a →
      (s.shared.net.node a).arity.toNat ≤ (s.shared.net.node a).neighbors.keySet.card) ∧
    (∃ k, s.shared.net.largestArity.toNat ≤ (s.shared.net.graph.neighbors k).card) ∧
    s.shared.net.EndsOrNull := by
  let g := (requests.flatten.map .correlation).foldl Graph.process new.graph
  obtain ⟨-, l⟩ := run_preserves (fun s => Counting g s ∧ Lagging s)
    (fun s i s' h hstep => by
      obtain ⟨c, l⟩ := h
      obtain ⟨-, rfl⟩ | ⟨w, sh, w', hw, hadv, rfl⟩ := Parties.step_cases hstep
      · exact ⟨c, l⟩
      · have hout := c.outcome hw
        rw [hadv] at hout
        exact ⟨c.turn hw hout, l.turn c hw hout⟩)
    hrun ⟨.start sound_new.wf hreqs, .start hpairs⟩
  refine ⟨fun k a ha => ?_, l.largestArity, l.ends⟩
  have hn : s.shared.net.graph.neighbors k = (s.shared.net.node a).neighbors.keySet :=
    nodeField_of_ref ha
  rw [← hn, ← graph_arity ha]
  exact l.arity_le k

/-- Two workers that add neighbors of one node, both after reading that it has none. -/
theorem arities_lag_behind :
    ∃ s : CorrelationThreads, run (Parties.step CorrelationWorker.advance)
        (start new [[[handleOf 97, handleOf 98]], [[handleOf 97, handleOf 99]]])
        (List.replicate 13 0 ++ List.replicate 13 1 ++ [0, 1]) = some s ∧
      s.shared.net.graph.arity (handleOf 97) = 1 ∧
      (s.shared.net.graph.neighbors (handleOf 97)).card = 2 ∧
      (∀ k a, s.shared.net.nodeRef k = some a →
        (s.shared.net.node a).arity.toNat ≤ (s.shared.net.node a).neighbors.keySet.card) ∧
      (∃ k, s.shared.net.largestArity.toNat ≤ (s.shared.net.graph.neighbors k).card) ∧
      s.shared.net.EndsOrNull := by
  have hreqs : ∀ ls ∈ [[[handleOf 97, handleOf 98]], [[handleOf 97, handleOf 99]]], ∀ l ∈ ls,
      ∀ k ∈ l, IsHandle k := by decide +kernel
  have hpairs : ∀ a b : Key, a ≠ b → cooccurrences
      [[[handleOf 97, handleOf 98]], [[handleOf 97, handleOf 99]]].flatten a b < 2 ^ 32 :=
    fun a b _ => (cooccurrences_le _ a b).trans_lt (by decide)
  have hmap : (run (Parties.step CorrelationWorker.advance)
      (start new [[[handleOf 97, handleOf 98]], [[handleOf 97, handleOf 99]]])
      (List.replicate 13 0 ++ List.replicate 13 1 ++ [0, 1])).map
        (fun s => (s.shared.net.graph.arity (handleOf 97),
          (s.shared.net.graph.neighbors (handleOf 97)).card))
      = some (1, 2) := by decide +kernel
  obtain ⟨s, hrun, hs⟩ := Option.map_eq_some_iff.mp hmap
  obtain ⟨harity, hcard⟩ := Prod.mk.injEq _ _ _ _ ▸ hs
  exact ⟨s, hrun, harity, hcard, arities_lag hreqs hpairs hrun⟩

end CorrelationThreads

end AttentionBroker
