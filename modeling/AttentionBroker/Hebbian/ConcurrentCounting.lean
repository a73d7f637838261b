import AttentionBroker.Hebbian.CorrelationSteps
import AttentionBroker.Hebbian.Representation

/-!
# Workers that correlate at the same time count exactly

`Graph.Owes` says which occurrences and co-occurrences a graph lacks. What the workers still have
to add is what the network lacks, and every step of a worker keeps it so. When all have finished,
nothing is missing: nodes, edges and their counts are those of the same requests one by one.
-/

namespace AttentionBroker

open Infra HebbianNetwork

/-! ## What a graph lacks -/

namespace Graph

variable {κ : Type*} [DecidableEq κ] {g g₁ g' : Graph κ} {ns ns' : List κ}
  {ps ps' : List (κ × κ)} {a b k : κ}

/-- With the occurrences `ns` and the co-occurrences `ps` the graph has what the other one has,
apart from arities. -/
structure Owes (g g' : Graph κ) (ns : List κ) (ps : List (κ × κ)) : Prop where
  nodes : ∀ k, k ∈ g'.nodes ↔ k ∈ g.nodes ∨ k ∈ ns
  count : ∀ k, g'.count k = g.count k + UInt32.ofNat (ns.count k)
  neighbors : ∀ a b, b ∈ g'.neighbors a ↔ b ∈ g.neighbors a ∨ (a, b) ∈ ps
  edgeCount : ∀ a b, g'.edgeCount a b = g.edgeCount a b + UInt32.ofNat (ps.count (a, b))
  importance : g'.importance = g.importance
  stimuli : g'.stimuli = g.stimuli
  tokens : g'.tokens = g.tokens

namespace Owes

theorem refl (g : Graph κ) : Owes g g [] [] := by
  constructor <;> simp

/-- Nothing is missing any more. -/
theorem sameCounts (h : Owes g g' [] []) : SameCounts g g' where
  nodes := Finset.ext fun k => by simpa using h.nodes k
  count := funext fun k => by simpa using h.count k
  neighbors := funext fun a => Finset.ext fun b => by simpa using h.neighbors a b
  edgeCount := funext fun a => funext fun b => by simpa using h.edgeCount a b
  importance := h.importance
  stimuli := h.stimuli
  tokens := h.tokens

theorem trans (h : Owes g g₁ ns ps) (h' : Owes g₁ g' ns' ps') :
    Owes g g' (ns ++ ns') (ps ++ ps') where
  nodes k := by rw [h'.nodes, h.nodes, List.mem_append, or_assoc]
  count k := by rw [h'.count, h.count, List.count_append, UInt32.ofNat_add, UInt32.add_assoc]
  neighbors a b := by rw [h'.neighbors, h.neighbors, List.mem_append, or_assoc]
  edgeCount a b := by
    rw [h'.edgeCount, h.edgeCount, List.count_append, UInt32.ofNat_add, UInt32.add_assoc]
  importance := h'.importance.trans h.importance
  stimuli := h'.stimuli.trans h.stimuli
  tokens := h'.tokens.trans h.tokens

theorem perm (h : Owes g g' ns ps) (hn : ns.Perm ns') (hp : ps.Perm ps') : Owes g g' ns' ps' where
  nodes k := by rw [h.nodes, hn.mem_iff]
  count k := by rw [h.count, hn.count_eq]
  neighbors a b := by rw [h.neighbors, hp.mem_iff]
  edgeCount a b := by rw [h.edgeCount, hp.count_eq]
  importance := h.importance
  stimuli := h.stimuli
  tokens := h.tokens

/-- An occurrence that is added is not missing any more. -/
theorem addNode (h : Owes g g' (k :: ns) ps) : Owes (g.addNode k) g' ns ps where
  nodes j := by
    rw [h.nodes, Graph.addNode, Finset.mem_insert, List.mem_cons]
    tauto
  count j := by
    rw [h.count, addNode_count, List.count_cons]
    by_cases hj : j = k
    · rw [if_pos hj, if_pos (by simp [hj]), UInt32.ofNat_add, UInt32.add_assoc,
        UInt32.add_comm (UInt32.ofNat _)]
      rfl
    · rw [if_neg hj, if_neg (by simpa using Ne.symm hj), Nat.add_zero, UInt32.add_zero]
  neighbors := h.neighbors
  edgeCount := h.edgeCount
  importance := h.importance
  stimuli := h.stimuli
  tokens := h.tokens

/-- A co-occurrence that is added is not missing any more. -/
theorem insertEdge (h : Owes g g' ns ((a, b) :: ps)) : Owes (g.insertEdge a b) g' ns ps where
  nodes := h.nodes
  count := h.count
  neighbors x y := by
    have hadd := addEdge_neighbors (a := x) (b := y) g (a, b)
    rw [addEdge, initEdge_neighbors] at hadd
    rw [h.neighbors, hadd, List.mem_cons, or_assoc]
  edgeCount x y := by
    have hadd := addEdge_edgeCount g (a, b) x y
    rw [addEdge, initEdge_edgeCount] at hadd
    rw [h.edgeCount, hadd, List.count_cons]
    by_cases hp : (x, y) = (a, b)
    · rw [if_pos hp, if_pos (by simp [hp]), UInt32.ofNat_add, UInt32.add_assoc,
        UInt32.add_comm (UInt32.ofNat _)]
      rfl
    · rw [if_neg hp, if_neg (by simpa using Ne.symm hp), Nat.add_zero, UInt32.add_zero]
  importance := h.importance
  stimuli := h.stimuli
  tokens := h.tokens

/-- What is added to a graph determines it apart from its arities. -/
theorem unique {g₂ : Graph κ} (h : Owes g g₁ ns ps) (h' : Owes g g₂ ns ps) : SameCounts g₁ g₂ where
  nodes := Finset.ext fun k => by rw [h.nodes, h'.nodes]
  count := funext fun k => by rw [h.count, h'.count]
  neighbors := funext fun a => Finset.ext fun b => by rw [h.neighbors, h'.neighbors]
  edgeCount := funext fun a => funext fun b => by rw [h.edgeCount, h'.edgeCount]
  importance := h'.importance.trans h.importance.symm
  stimuli := h'.stimuli.trans h.stimuli.symm
  tokens := h'.tokens.trans h.tokens.symm

/-- Arities do not matter. -/
theorem congr (h : Owes g g' ns ps) (hs : SameCounts g g₁) : Owes g₁ g' ns ps where
  nodes k := by rw [h.nodes, hs.nodes]
  count k := by rw [h.count, hs.count]
  neighbors a b := by rw [h.neighbors, hs.neighbors]
  edgeCount a b := by rw [h.edgeCount, hs.edgeCount]
  importance := h.importance.trans hs.importance.symm
  stimuli := h.stimuli.trans hs.stimuli.symm
  tokens := h.tokens.trans hs.tokens.symm

/-- What a correlation adds. -/
theorem correlation [LT κ] [DecidableLT κ] (g : Graph κ) (l : List κ) :
    Owes g (g.correlation l) l (edgePairs l) := by
  obtain ⟨hn, he, -, -⟩ := foldl_addNode_links l g
  have hkeep : ∀ (l : List κ) (g : Graph κ), (l.foldl Graph.addNode g).importance = g.importance ∧
      (l.foldl Graph.addNode g).stimuli = g.stimuli ∧
      (l.foldl Graph.addNode g).tokens = g.tokens := fun l => by
    induction l with
    | nil => exact fun _ => ⟨rfl, rfl, rfl⟩
    | cons k l ih => exact fun g => ih (g.addNode k)
  have hkeep' : ∀ (ps : List (κ × κ)) (g : Graph κ),
      (ps.foldl addEdge g).importance = g.importance ∧ (ps.foldl addEdge g).stimuli = g.stimuli ∧
      (ps.foldl addEdge g).tokens = g.tokens := fun ps => by
    induction ps with
    | nil => exact fun _ => ⟨rfl, rfl, rfl⟩
    | cons p ps ih =>
      intro g
      have h := ih (g.addEdge p)
      rw [addEdge, initEdge_importance, initEdge_stimuli, initEdge_tokens] at h
      exact h
  obtain ⟨hi, hs, ht⟩ := hkeep l g
  obtain ⟨hi', hs', ht'⟩ := hkeep' (edgePairs l) (l.foldl Graph.addNode g)
  exact
    { nodes := fun k => by rw [Graph.correlation, foldl_addEdge_nodes, mem_foldl_addNode]
      count := fun k => by rw [Graph.correlation, foldl_addEdge_count, foldl_addNode_count]
      neighbors := fun a b => by rw [Graph.correlation, foldl_addEdge_neighbors, hn]
      edgeCount := fun a b => by rw [Graph.correlation, foldl_addEdge_edgeCount, he]
      importance := hi'.trans hi
      stimuli := hs'.trans hs
      tokens := ht'.trans ht }

/-- What some correlations add. -/
theorem correlations : ∀ (lists : List (List Key)) (g : Graph Key),
    Owes g ((lists.map .correlation).foldl process g) lists.flatten (additions lists)
  | [], g => refl g
  | l :: lists, g => (correlation g l).trans (correlations lists (g.correlation l))

end Owes

end Graph

/-! ## All workers -/

/-- **What a step adds is not missing any more.** -/
theorem HebbianNetwork.Adds.owes {g : Graph Key} {ns ns' : List Key} {ps ps' : List (Key × Key)}
    (h : Adds net net' ns ps) (wf : net.Wf) (wf' : net'.Wf)
    (ho : net.graph.Owes g (ns ++ ns') (ps ++ ps')) : net'.graph.Owes g ns' ps' := by
  cases h with
  | nothing h => exact ho.congr h.sameCounts
  | node h =>
    rw [h.graph wf wf']
    exact ho.addNode
  | edge hi =>
    rw [hi.graph wf wf']
    exact ho.insertEdge

namespace CorrelationThreads

variable {s s' : CorrelationThreads} {g : Graph Key} {net : HebbianNetwork} {w : CorrelationWorker}
  {i : Nat}

/-- What every turn keeps. The graph lacks what the workers still add. -/
structure Counting (g : Graph Key) (s : CorrelationThreads) : Prop where
  wf : s.shared.net.Wf
  place : ∀ w ∈ s.locals, w.InPlace s.shared.net
  lock : (s.locals.map fun w => w.holds.toNat).sum = s.shared.locked.toNat
  owes : s.shared.net.graph.Owes g (s.locals.flatMap CorrelationWorker.nodesToAdd)
    (s.locals.flatMap CorrelationWorker.pairsToAdd)

/-- A bound on the turns that are to come. -/
def toGo (s : CorrelationThreads) : Nat := (s.locals.map CorrelationWorker.toGo).sum

/-- All requests are processed. -/
def Finished (s : CorrelationThreads) : Prop := ∀ w ∈ s.locals, w.Finished

instance (s : CorrelationThreads) : Decidable (Finished s) :=
  inferInstanceAs (Decidable (∀ w ∈ s.locals, _))

/-- The workers before their first requests. -/
def start (net : HebbianNetwork) (requests : List (List (List Key))) : CorrelationThreads where
  shared := { net := net, locked := false }
  locals := requests.map CorrelationWorker.start

namespace Counting

theorem outcome (h : Counting g s) (hw : s.locals[i]? = some w) :
    w.Outcome s.shared (w.advance s.shared) :=
  CorrelationWorker.outcome h.wf (h.place w (Parties.mem_of_get hw))
    (Parties.locked_of_holds h.lock hw)

/-- **A turn keeps what is missing the same as what the workers still add.** -/
theorem turn (h : Counting g s) {w' : CorrelationWorker} {sh : SharedNetwork}
    (hw : s.locals[i]? = some w) (hsteps : w.Steps s.shared sh w') :
    Counting g { shared := sh, locals := s.locals.set i w' } := by
  obtain ⟨wf', -, -, ⟨ns, ps, hadds, hns, hps⟩, hplace, hlock, -⟩ := hsteps
  obtain ⟨-, hothers⟩ := (Parties.forall_locals hw).mp h.place
  refine ⟨wf', ?_, ?_, ?_⟩
  · exact (Parties.forall_set_others hw w').mpr
      ⟨hplace, fun x hx => (hothers x hx).grows hadds.grows⟩
  · have hsum := h.lock
    rw [Parties.sum_locals _ hw] at hsum
    show _ = sh.locked.toNat
    rw [Parties.sum_set_others _ hw]
    omega
  · have howes := h.owes.perm ((Parties.perm_others hw).flatMap_right _)
      ((Parties.perm_others hw).flatMap_right _)
    rw [List.flatMap_cons, List.flatMap_cons, hns, hps, List.append_assoc, List.append_assoc]
      at howes
    have hset := Parties.set_perm_others hw w'
    exact (hadds.owes h.wf wf' howes).perm (hset.flatMap_right _).symm (hset.flatMap_right _).symm

theorem step (h : Counting g s) (hstep : s.step CorrelationWorker.advance i = some s') :
    Counting g s' ∧ toGo s' ≤ toGo s ∧ (i < s.locals.length → toGo s' < toGo s) := by
  obtain ⟨hnone, rfl⟩ | ⟨w, sh, w', hw, hadv, rfl⟩ := Parties.step_cases hstep
  · exact ⟨h, Nat.le_refl _, fun hi => absurd (List.getElem?_eq_none_iff.mp hnone)
      (Nat.not_le.mpr hi)⟩
  · have hout := h.outcome hw
    rw [hadv] at hout
    have hlt : toGo { shared := sh, locals := s.locals.set i w' } < toGo s := by
      unfold toGo
      rw [Parties.sum_set_others _ hw, Parties.sum_locals _ hw]
      exact Nat.add_lt_add_right hout.toGo _
    exact ⟨h.turn hw hout, Nat.le_of_lt hlt, fun _ => hlt⟩

/-- The next turn of a worker does not fail. -/
theorem turn_cases (h : Counting g s) (hw : s.locals[i]? = some w) :
    (∃ s', s.step CorrelationWorker.advance i = some s') ∨ w.Finished ∨
      s.shared.locked = true ∧ w.holds = false := by
  have hout := h.outcome hw
  match hadv : w.advance s.shared, hout with
  | .ok (sh, w'), _ => exact .inl ⟨_, Parties.step_of_turn (Parties.turn_ok hw hadv)⟩
  | .error .waits, hwaits => exact .inr (.inr hwaits)
  | .error .returned, hfinished => exact .inr (.inl hfinished)

/-- **While a request is not processed, some worker can make a step.** -/
theorem progress (h : Counting g s) : Finished s ∨
    ∃ i < s.locals.length, ∃ s', s.step CorrelationWorker.advance i = some s' := by
  by_cases hall : Finished s
  · exact .inl hall
  right
  unfold Finished at hall
  push Not at hall
  obtain ⟨w, hmem, hnot⟩ := hall
  obtain ⟨i, hw⟩ := List.mem_iff_getElem?.mp hmem
  rcases h.turn_cases hw with hstep | hfinished | ⟨hlocked, -⟩
  · exact ⟨i, (List.getElem?_eq_some_iff.mp hw).1, hstep⟩
  · exact absurd hfinished hnot
  · -- the worker that has the mutex can go on
    obtain ⟨j, x, hj, hholds⟩ := Parties.exists_holder h.lock hlocked
    rcases h.turn_cases hj with hstep | ⟨-, -, hcalls⟩ | ⟨-, hfree⟩
    · exact ⟨j, (List.getElem?_eq_some_iff.mp hj).1, hstep⟩
    · rw [CorrelationWorker.holds, hcalls] at hholds
      cases hholds
    · rw [hholds] at hfree
      cases hfree

theorem pairs_start (requests : List (List (List Key))) :
    (requests.map CorrelationWorker.start).flatMap CorrelationWorker.pairsToAdd
      = Graph.additions requests.flatten := by
  rw [List.flatMap_map, Graph.additions, ← List.flatMap_id, List.flatMap_assoc]
  rfl

theorem start (wf : net.Wf) {requests : List (List (List Key))}
    (hreqs : ∀ ls ∈ requests, ∀ l ∈ ls, ∀ k ∈ l, IsHandle k) :
    Counting ((requests.flatten.map .correlation).foldl Graph.process net.graph)
      (CorrelationThreads.start net requests) where
  wf := wf
  place w hw := by
    obtain ⟨ls, hls, rfl⟩ := List.mem_map.mp hw
    exact ⟨hreqs ls hls, nofun, trivial, nofun, nofun⟩
  lock := by
    refine List.sum_eq_zero fun n hn => ?_
    obtain ⟨w, hw, rfl⟩ := List.mem_map.mp hn
    obtain ⟨ls, -, rfl⟩ := List.mem_map.mp hw
    rfl
  owes := by
    have hn : (requests.map CorrelationWorker.start).flatMap CorrelationWorker.nodesToAdd
        = requests.flatten.flatten := by
      rw [List.flatMap_map, List.flatten_flatten, ← List.flatMap_def]
      rfl
    show net.graph.Owes _ ((requests.map _).flatMap _) ((requests.map _).flatMap _)
    rw [hn, pairs_start]
    exact .correlations requests.flatten net.graph

/-- **When all requests are processed, nothing is missing.** -/
theorem sameCounts (h : Counting g s) (hf : Finished s) : s.shared.net.graph.SameCounts g := by
  have hn : s.locals.flatMap CorrelationWorker.nodesToAdd = [] :=
    List.flatMap_eq_nil_iff.mpr fun w hw => (hf w hw).toAdd.1
  have hp : s.locals.flatMap CorrelationWorker.pairsToAdd = [] :=
    List.flatMap_eq_nil_iff.mpr fun w hw => (hf w hw).toAdd.2
  have howes := h.owes
  rw [hn, hp] at howes
  exact howes.sameCounts

end Counting

/-- The counts of a network are those of some requests one by one, in whatever order. -/
def CountsOneByOne (net : HebbianNetwork) (lists : List (List Key)) (net' : HebbianNetwork) :
    Prop :=
  ∀ order : List (List Key), order.Perm lists →
    ∃ net₁, run process net (order.map .correlation) = some net₁ ∧
      net₁.graph.SameCounts net'.graph ∧
      (∀ k, IsHandle k → net'.getNodeCount k = net₁.getNodeCount k) ∧
      ∀ k h, IsHandle k → IsHandle h →
        net'.getAsymmetricEdgeCount k h = net₁.getAsymmetricEdgeCount k h

/-- A network with the same nodes, neighbors and counts as the requests one by one. -/
theorem countsOneByOne {net' : HebbianNetwork} {lists : List (List Key)} (sound : net.Sound)
    (wf : net'.Wf) (hlists : ∀ l ∈ lists, ∀ k ∈ l, IsHandle k)
    (h : net'.graph.SameCounts ((lists.map .correlation).foldl Graph.process net.graph)) :
    CountsOneByOne net lists net' := by
  intro order horder
  have hvalid : ∀ r ∈ order.map Request.correlation, r.Valid := by
    intro r hr
    obtain ⟨l, hl, rfl⟩ := List.mem_map.mp hr
    exact hlists l (horder.mem_iff.mp hl)
  obtain ⟨net₁, hrun, sound₁, hg⟩ := run_process sound hvalid
  have hsame : net₁.graph.SameCounts net'.graph := by
    have horder' := (Graph.Owes.correlations order net.graph).perm horder.flatten
      (horder.flatMap_right _)
    rw [hg]
    have hunique := horder'.unique (.correlations lists net.graph)
    exact hunique.trans h.symm
  refine ⟨net₁, hrun, hsame, fun k hk => ?_, fun k h' hk hh => ?_⟩
  · rw [getNodeCount_eq wf hk, getNodeCount_eq sound₁.wf hk, hsame.count]
  · rw [getAsymmetricEdgeCount_eq wf hk hh, getAsymmetricEdgeCount_eq sound₁.wf hk hh,
      hsame.edgeCount]

/--
**Workers that correlate at the same time count exactly.**

However the requests are divided among workers and whatever the interleaving, no step fails, the
workers make a bounded number of steps and some can go on until all requests are processed. Then
nodes, neighbors and counts are those of the same requests one by one, in whatever order. Only
arities and the ends of edges can differ.
-/
theorem correlations_count_exactly (sound : net.Sound) {requests : List (List (List Key))}
    (hreqs : ∀ ls ∈ requests, ∀ l ∈ ls, ∀ k ∈ l, IsHandle k) (schedule : List Nat)
    (hrun : run (Parties.step CorrelationWorker.advance) (start net requests) schedule = some s) :
    schedule.countP (· < requests.length)
      ≤ (requests.map fun ls => (ls.map fun l => CorrelationWorker.stepBound l.length).sum).sum ∧
    (∀ i w e, s.locals[i]? = some w → s.turn CorrelationWorker.advance i = .error e →
      e = .waits ∨ e = .returned ∧ w.Finished) ∧
    (∃ rest s', run (Parties.step CorrelationWorker.advance) s rest = some s' ∧ Finished s') ∧
    (Finished s → CountsOneByOne net requests.flatten s.shared.net) := by
  let g := (requests.flatten.map .correlation).foldl Graph.process net.graph
  have hstart : Counting g (start net requests) := .start sound.wf hreqs
  obtain ⟨h, hcount, -, hend⟩ := Parties.run_ends (Counting g) Finished toGo
    (fun s i s' hs hstep => hs.step hstep) (fun s hs => hs.progress) hrun hstart
  have hlists : ∀ l ∈ requests.flatten, ∀ k ∈ l, IsHandle k := fun l hl => by
    obtain ⟨ls, hls, hl⟩ := List.mem_flatten.mp hl
    exact hreqs ls hls l hl
  refine ⟨?_, fun i w e hw herror => ?_, hend, fun hf =>
    countsOneByOne sound h.wf hlists (h.sameCounts hf)⟩
  · have hlength : (start net requests).locals.length = requests.length := List.length_map _
    have hbound : toGo (start net requests) = (requests.map fun ls =>
        (ls.map fun l => CorrelationWorker.stepBound l.length).sum).sum := by
      show ((requests.map CorrelationWorker.start).map CorrelationWorker.toGo).sum = _
      rw [List.map_map]
      refine congrArg List.sum (List.map_congr_left fun ls _ => ?_)
      simp [CorrelationWorker.toGo, CorrelationWorker.start, CorrelationLoop.toGo]
    rw [hlength, hbound] at hcount
    exact hcount
  · have hout := h.outcome hw
    cases hadv : w.advance s.shared with
    | ok r =>
      rw [Parties.turn_ok hw hadv] at herror
      cases herror
    | error e' =>
      rw [Parties.turn_error hw hadv] at herror
      obtain rfl := Except.error.inj herror
      rw [hadv] at hout
      cases e' with
      | waits => exact .inl rfl
      | returned => exact .inr ⟨rfl, hout⟩
      | fault => exact hout.elim

/-- Two workers with the same pair of handles, in turns. -/
theorem correlations_count_exactly_in_turns :
    ∃ s : CorrelationThreads, run (Parties.step CorrelationWorker.advance)
        (start new [[[handleOf 97, handleOf 98]], [[handleOf 97, handleOf 98]]])
        ((List.range 42).map (· % 2)) = some s ∧
      Finished s ∧ s.shared.net.graph.arity (handleOf 97) = 0 ∧
      CountsOneByOne new [[handleOf 97, handleOf 98], [handleOf 97, handleOf 98]] s.shared.net := by
  have hreqs : ∀ ls ∈ [[[handleOf 97, handleOf 98]], [[handleOf 97, handleOf 98]]], ∀ l ∈ ls,
      ∀ k ∈ l, IsHandle k := by decide +kernel
  have hmap : (run (Parties.step CorrelationWorker.advance)
      (start new [[[handleOf 97, handleOf 98]], [[handleOf 97, handleOf 98]]])
      ((List.range 42).map (· % 2))).map
        (fun s => (decide (Finished s), s.shared.net.graph.arity (handleOf 97)))
      = some (true, 0) := by decide +kernel
  obtain ⟨s, hrun, hs⟩ := Option.map_eq_some_iff.mp hmap
  obtain ⟨hf, harity⟩ := Prod.mk.injEq _ _ _ _ ▸ hs
  obtain ⟨-, -, -, hcounts⟩ := correlations_count_exactly sound_new hreqs _ hrun
  exact ⟨s, hrun, of_decide_eq_true hf, harity, hcounts (of_decide_eq_true hf)⟩

end CorrelationThreads

end AttentionBroker
