import AttentionBroker.Hebbian.Overlap

/-!
# A stimulus among correlations

The keys of the private trie are those of the first traversal and of the request. The second
traversal looks up every node that is there by then. `stimulus_safe_iff` says for which
correlations in between the look up returns NULL.
-/

namespace AttentionBroker

open Infra Finset TokenSpreader HebbianNetwork

namespace Overlap

variable {net : HebbianNetwork} {s : Overlap} {q : HandleCount} {lists : List (List Key)}

/-! ## Steps -/

/-- A step on the network: the next phase of a call, or a complete correlation. -/
inductive Action where
  | phase (i : Nat)
  | correlation (handleList : List Key)

/-- What a step leads to, or the fault it raises. -/
def act (s : Overlap) : Action → Except Fault Overlap
  | .phase i => s.turn phase i
  | .correlation handleList =>
    match HebbianNetwork.correlation handleList s.shared with
    | .ok _ net => .ok { s with shared := net }
    | .error e _ => .error e

/-- A step of a run, which a fault ends. -/
def next (s : Overlap) (a : Action) : Option Overlap := (act s a).toOption

theorem next_of_act {a : Action} {s' : Overlap} (h : act s a = .ok s') : next s a = some s' := by
  rw [next, h]
  rfl

/-- The next phase of a call that is the only one. -/
theorem act_single {net' : HebbianNetwork} {stage stage' : Stage}
    (h : phase (q, stage) net = .ok (net', q, stage')) :
    act { shared := net, locals := [(q, stage)] } (.phase 0)
      = .ok { shared := net', locals := [(q, stage')] } := by
  let s : Overlap := { shared := net, locals := [(q, stage)] }
  have hcall : s.locals[0]? = some (q, stage) := rfl
  have hturn : s.turn phase 0 = .ok { shared := net', locals := s.locals.set 0 (q, stage') } :=
    Parties.turn_ok hcall h
  exact hturn

/-- Complete correlations, one after the other. -/
def correlations (lists : List (List Key)) : List Action := lists.map .correlation

theorem mem_correlations_nodes {g : Graph Key} {k : Key} :
    k ∈ (lists.foldl Graph.correlation g).nodes ↔ k ∈ g.nodes ∨ ∃ l ∈ lists, k ∈ l := by
  induction lists generalizing g with
  | nil => simp
  | cons l lists ih =>
    rw [List.foldl_cons, ih, Graph.mem_correlation_nodes, or_assoc]
    simp only [List.mem_cons, exists_eq_or_imp]

/-- Correlations move no tokens. -/
theorem correlations_fields (lists : List (List Key)) (g : Graph Key) :
    (lists.foldl Graph.correlation g).importance = g.importance ∧
    (lists.foldl Graph.correlation g).stimuli = g.stimuli ∧
    (lists.foldl Graph.correlation g).tokens = g.tokens := by
  induction lists generalizing g with
  | nil => exact ⟨rfl, rfl, rfl⟩
  | cons l lists ih =>
    rw [List.foldl_cons]
    simpa using ih (g.correlation l)

/-- The importance of every handle in the states before the steps. -/
abbrev ImportanceKept (importance : Key → ℚ) : Overlap → List Action → Prop :=
  AllSteps next fun s _ => s.shared.graph.importance = importance

/--
**Correlations complete and are simulated.**

They move no importance, and the calls under way are left alone.
-/
theorem run_correlations (hs : s.shared.Sound) (hl : ∀ l ∈ lists, ∀ k ∈ l, IsHandle k) :
    ∃ net', run next s (correlations lists) = some { s with shared := net' } ∧ net'.Sound ∧
      net'.graph = lists.foldl Graph.correlation s.shared.graph ∧
      net'.graph.importance = s.shared.graph.importance ∧
      ImportanceKept s.shared.graph.importance s (correlations lists) := by
  induction lists generalizing s with
  | nil => exact ⟨s.shared, rfl, hs, rfl, rfl, trivial⟩
  | cons l lists ih =>
    obtain ⟨net₁, hrun₁, s₁, hg₁⟩ := correlation_simulates hs (hl l List.mem_cons_self)
    have hact : next s (.correlation l) = some { s with shared := net₁ } :=
      next_of_act (by simp only [act, hrun₁])
    have himp₁ : net₁.graph.importance = s.shared.graph.importance := by
      rw [hg₁, Graph.correlation_importance]
    obtain ⟨net₂, hrun₂, s₂, hg₂, himp₂, hkept₂⟩ := ih (s := { s with shared := net₁ }) s₁
      fun l' hl' => hl l' (List.mem_cons_of_mem _ hl')
    refine ⟨net₂, ?_, s₂, ?_, himp₂.trans himp₁, rfl, fun s' hs' => ?_⟩
    · rw [correlations, List.map_cons, run_of_step hact]
      exact hrun₂
    · rw [hg₂, hg₁, List.foldl_cons]
    · obtain rfl := Option.some.inj (hact.symm.trans hs')
      exact himp₁ ▸ hkept₂

/-! ## One stimulus -/

/-- Every handle of the lists is a node or named by the request. -/
def Known (net : HebbianNetwork) (q : HandleCount) (lists : List (List Key)) : Prop :=
  ∀ l ∈ lists, ∀ k ∈ l, k ∈ net.graph.nodes ∨ k ∈ q.named

instance : Decidable (Known net q lists) :=
  inferInstanceAs (Decidable (∀ l ∈ lists, ∀ k ∈ l, _ ∨ _))

variable {c₁ c₂ c₃ : List (List Key)} {data : StimuliData}

/-- What the second traversal finds when it starts: which nodes, and which keys. -/
structure Prepared (net : HebbianNetwork) (q : HandleCount) (lists : List (List Key))
    (s : Overlap) (data : StimuliData) : Prop where
  sound : s.shared.Sound
  wf : data.Wf
  calls : s.locals = [(q, .wagesDistributed data)]
  nodes : ∀ k, k ∈ s.shared.graph.nodes ↔ k ∈ net.graph.nodes ∨ ∃ l ∈ lists, k ∈ l
  keys : data.ledger.keys = net.graph.nodes ∪ q.named

/-- The first two phases, with correlations after each. -/
def prepare (c₁ c₂ : List (List Key)) : List Action :=
  .phase 0 :: correlations c₁ ++ .phase 0 :: correlations c₂

/--
**The first two phases, among correlations.**

No importance moves, and the ledger of the call is the one of the network it started on.
-/
theorem run_prepared (hn : net.Sound) (hq : q.Valid)
    (hl : ∀ l ∈ c₁ ++ c₂, ∀ k ∈ l, IsHandle k) :
    ∃ s data, run next (start net [q]) (prepare c₁ c₂) = some s ∧
      Prepared net q (c₁ ++ c₂) s data ∧
      data.ledger = net.graph.wagesLedger rates q.named q.boost ∧
      s.shared.graph.importance = net.graph.importance ∧
      ImportanceKept net.graph.importance (start net [q]) (prepare c₁ c₂) := by
  obtain ⟨data₁, hrun₁, wf₁, hledger₁⟩ := phase_ready hn q
  have hturn₁ : next (start net [q]) (.phase 0)
      = some { shared := net, locals := [(q, .rentCollected data₁)] } :=
    next_of_act (act_single hrun₁)
  obtain ⟨net₂, hrun₂, s₂, hg₂, himp₂, hkept₂⟩ :=
    run_correlations (s := { shared := net, locals := [(q, .rentCollected data₁)] }) hn
      fun l hl' => hl l (List.mem_append_left _ hl')
  obtain ⟨data₃, net₃, hrun₃, wf₃, s₃, hg₃, hledger₃⟩ := phase_rentCollected s₂ wf₁ hq
  have hturn₃ : next { shared := net₂, locals := [(q, .rentCollected data₁)] } (.phase 0)
      = some { shared := net₃, locals := [(q, .wagesDistributed data₃)] } :=
    next_of_act (act_single hrun₃)
  obtain ⟨net₄, hrun₄, s₄, hg₄, himp₄, hkept₄⟩ :=
    run_correlations (s := { shared := net₃, locals := [(q, .wagesDistributed data₃)] }) s₃
      fun l hl' => hl l (List.mem_append_right _ hl')
  have himp₃ : net₃.graph.importance = net.graph.importance := by rw [hg₃]; exact himp₂
  have htokens : net₂.graph.tokens = net.graph.tokens := by
    rw [hg₂]
    exact (correlations_fields c₁ net.graph).2.2
  have hnodes₃ : net₃.graph.nodes = net₂.graph.nodes := by rw [hg₃]; rfl
  refine ⟨{ shared := net₄, locals := [(q, .wagesDistributed data₃)] }, data₃, ?_,
    ⟨s₄, wf₃, rfl, fun k => ?_, ?_⟩, ?_, himp₄.trans himp₃, ?_⟩
  · rw [prepare, List.cons_append, run_of_step hturn₁, run_of_run hrun₂, run_of_step hturn₃, hrun₄]
  · rw [hg₄, mem_correlations_nodes, hnodes₃, hg₂, mem_correlations_nodes, or_assoc]
    simp only [List.mem_append, or_and_right, exists_or]
  · rw [hledger₃, Graph.distributeWages, Ledger.pay, hledger₁]
    rfl
  · rw [hledger₃, hledger₁, Graph.distributeWages, htokens]
    rfl
  · refine ⟨rfl, fun s hs => ?_⟩
    obtain rfl := Option.some.inj (hturn₁.symm.trans hs)
    refine allSteps_append.mpr ⟨hkept₂, fun s hs => ?_⟩
    obtain rfl := Option.some.inj (hrun₂.symm.trans hs)
    refine ⟨himp₂, fun s hs => ?_⟩
    obtain rfl := Option.some.inj (hturn₃.symm.trans hs)
    exact himp₃ ▸ hkept₄

theorem Prepared.known_iff {s : Overlap} (h : Prepared net q lists s data) :
    s.shared.graph.nodes ⊆ data.ledger.keys ↔ Known net q lists := by
  rw [h.keys]
  constructor
  · intro hsub l hl k hk
    exact mem_union.mp (hsub ((h.nodes k).mpr (.inr ⟨l, hl, hk⟩)))
  · intro hknown k hk
    refine mem_union.mpr ?_
    rcases (h.nodes k).mp hk with hk | ⟨l, hl, hk⟩
    · exact .inl hk
    · exact hknown l hl k hk

/--
**When a stimulus is safe among correlations.**

Whatever is correlated between its phases, the look up of the second traversal is never NULL
exactly if all that is correlated before it is known: a node from the start, or named by the
request. The stimulus then completes.
-/
theorem stimulus_safe_iff (hn : net.Reachable) (hq : q.Valid)
    (hl : ∀ l ∈ c₁ ++ c₂ ++ c₃, ∀ k ∈ l, IsHandle k) :
    ∃ s, run next (start net [q])
        (.phase 0 :: correlations c₁ ++ .phase 0 :: correlations c₂) = some s ∧
      (act s (.phase 0) ≠ .error .nullPointer ↔ Known net q (c₁ ++ c₂)) ∧
      (Known net q (c₁ ++ c₂) → ∃ s',
        run next s (.phase 0 :: correlations c₃ ++ [.phase 0]) = some s' ∧ Finished s') := by
  have hprepare : ∀ l ∈ c₁ ++ c₂, ∀ k ∈ l, IsHandle k := fun l hl' =>
    hl l (List.mem_append_left _ hl')
  obtain ⟨s, data, hrun, h, -⟩ := run_prepared hn.sound hq hprepare
  have hcall : s.locals[0]? = some (q, .wagesDistributed data) := by rw [h.calls]; rfl
  refine ⟨s, hrun, ?_⟩
  rcases phase_wagesDistributed (q := q) h.sound h.wf with
    ⟨hsub, net₁, hrun₁, s₁, hg₁⟩ | ⟨hsub, hfault⟩
  · have hturn₁ : act s (.phase 0)
        = .ok { shared := net₁, locals := [(q, .consolidated data)] } := by
      rw [act, Parties.turn_ok hcall hrun₁, h.calls]
      rfl
    refine ⟨⟨fun _ => h.known_iff.mp hsub, fun _ => by rw [hturn₁]; simp⟩, fun _ => ?_⟩
    obtain ⟨net₂, hrun₂, s₂, -⟩ :=
      run_correlations (s := { shared := net₁, locals := [(q, .consolidated data)] }) s₁
        fun l hl' => hl l (List.mem_append_right _ hl')
    obtain ⟨net₃, hrun₃, -⟩ := phase_consolidated s₂ q data
    have hturn₃ : next { shared := net₂, locals := [(q, .consolidated data)] } (.phase 0)
        = some { shared := net₃, locals := [(q, .finished)] } :=
      next_of_act (act_single hrun₃)
    refine ⟨{ shared := net₃, locals := [(q, .finished)] }, ?_, ?_⟩
    · rw [List.cons_append, run_of_step (next_of_act hturn₁), run_of_run hrun₂,
        run_of_step hturn₃]
      rfl
    · intro c hc
      obtain rfl := List.mem_singleton.mp hc
      trivial
  · have hturn : act s (.phase 0) = .error .nullPointer := Parties.turn_error hcall hfault
    have hunknown : ¬ Known net q (c₁ ++ c₂) := fun hk => hsub (h.known_iff.mpr hk)
    exact ⟨⟨fun hne => absurd hturn hne, fun hk => absurd hk hunknown⟩,
      fun hk => absurd hk hunknown⟩

/-- `ab` between the first two phases and `c` before the last one. -/
theorem stimulus_safe_iff_ab_c :
    ∃ s, run next (start pairNetwork [stimulusOfA])
        (.phase 0 :: correlations [[handleOf 97, handleOf 98]] ++ .phase 0 :: correlations [])
          = some s ∧
      (act s (.phase 0) ≠ .error .nullPointer ↔
        Known pairNetwork stimulusOfA ([[handleOf 97, handleOf 98]] ++ [])) ∧
      (Known pairNetwork stimulusOfA ([[handleOf 97, handleOf 98]] ++ []) → ∃ s',
        run next s (.phase 0 :: correlations [[handleOf 99]] ++ [.phase 0]) = some s' ∧
          Finished s') :=
  stimulus_safe_iff pairNetwork_reachable (stimulusOf_valid _ (by decide +kernel))
    (by decide +kernel)

/-- The fault a step raises. -/
def fault? (s : Overlap) (a : Action) : Option Fault :=
  match act s a with
  | .ok _ => none
  | .error e => some e

/-- `c` between the first two phases: the second traversal visits it and looks up NULL. -/
theorem stimulus_unsafe_ab_c :
    pairNetwork.Reachable ∧ stimulusOfA.Valid ∧ stimulusOfA.Balanced ∧
    (∀ k ∈ [handleOf 99], IsHandle k) ∧
    (run next (start pairNetwork [stimulusOfA])
        [.phase 0, .correlation [handleOf 99], .phase 0]).bind (fun s => fault? s (.phase 0))
      = some .nullPointer :=
  ⟨pairNetwork_reachable, by decide +kernel, by decide +kernel, by decide +kernel,
    by decide +kernel⟩

end Overlap

end AttentionBroker
