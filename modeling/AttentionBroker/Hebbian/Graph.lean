import Mathlib.Algebra.BigOperators.Group.List.Basic
import Mathlib.Data.Finset.Lattice.Fold
import Mathlib.Data.Rat.Defs
import Mathlib.Data.UInt
import Mathlib.Logic.Function.Basic
import AttentionBroker.Infra.Flow

/-!
# What the network is for

A `Graph` is a weighted directed graph that tokens move on. It has no tries, objects or
pointers, and its handles are of any type. Counters have 32 bits as in the source, because
their wrap around can be observed.

The operations are the requests of the broker as functions: `correlation` counts
occurrences and co-occurrences, and a stimulus is `collectRent`, `distributeWages`,
`consolidate` and `spread`, each for all nodes at once.
-/

namespace AttentionBroker

open Finset

/-- Everything that can be observed of a network. -/
@[ext]
structure Graph (κ : Type*) where
  nodes : Finset κ
  count : κ → UInt32
  arity : κ → UInt32
  importance : κ → ℚ
  stimuli : κ → ℚ
  neighbors : κ → Finset κ
  edgeCount : κ → κ → UInt32
  largestArity : UInt32
  tokens : ℚ

/-- The rates of a stimulus. -/
structure Rates where
  rent : ℚ
  lowerbound : ℚ
  rangeSize : ℚ

/-- What a stimulus has collected and promised so far. -/
@[ext]
structure Ledger (κ : Type*) where
  keys : Finset κ
  rent : κ → ℚ
  wages : κ → ℚ
  totalRent : ℚ
  largestArity : UInt32

/-- Wages are noted for the named handles. -/
def Ledger.pay {κ : Type*} [DecidableEq κ] (l : Ledger κ) (named : Finset κ) (amount : κ → ℚ) :
    Ledger κ :=
  { l with keys := l.keys ∪ named, wages := fun k => l.wages k + amount k }

theorem Ledger.pay_pay {κ : Type*} [DecidableEq κ] (l : Ledger κ) (named₁ named₂ : Finset κ)
    (amount₁ amount₂ : κ → ℚ) :
    (l.pay named₁ amount₁).pay named₂ amount₂
      = l.pay (named₁ ∪ named₂) fun k => amount₁ k + amount₂ k := by
  simp only [Ledger.pay, union_assoc, add_assoc]

/-- The part of its importance a node of this arity spreads. -/
def Rates.spreading (r : Rates) (largestArity arity : UInt32) : ℚ :=
  r.lowerbound + r.rangeSize * ((arity.toNat : ℚ) / (largestArity.toNat : ℚ))

namespace Graph

variable {κ : Type*} [DecidableEq κ] {g : Graph κ} {a b k : κ}

/-- The graph of a new network. -/
def empty : Graph κ where
  nodes := ∅
  count := fun _ => 0
  arity := fun _ => 0
  importance := fun _ => 0
  stimuli := fun _ => 0
  neighbors := fun _ => ∅
  edgeCount := fun _ _ => 0
  largestArity := 0
  tokens := 1

/-! ## Correlation -/

/-- One more occurrence. -/
def addNode (g : Graph κ) (k : κ) : Graph κ :=
  { g with nodes := insert k g.nodes, count := Function.update g.count k (g.count k + 1) }

/-- One more co-occurrence. -/
def insertEdge (g : Graph κ) (a b : κ) : Graph κ :=
  { g with
    neighbors := Function.update g.neighbors a (insert b (g.neighbors a))
    edgeCount := Function.update g.edgeCount a
      (Function.update (g.edgeCount a) b (g.edgeCount a b + 1)) }

/-- One more neighbor, if the co-occurrence is the first. -/
def initEdge (g : Graph κ) (a b : κ) : Graph κ :=
  if g.edgeCount a b = 1 then
    { g with
      arity := Function.update g.arity a (g.arity a + 1)
      largestArity :=
        if g.largestArity < g.arity a + 1 then g.arity a + 1 else g.largestArity }
  else g

/-- One more co-occurrence, with its arity. -/
def addEdge (g : Graph κ) (p : κ × κ) : Graph κ := (g.insertEdge p.1 p.2).initEdge p.1 p.2

/-- The pairs of different handles of a list, in both directions, as they are added. -/
def edgePairs [LT κ] [DecidableLT κ] (l : List κ) : List (κ × κ) :=
  l.flatMap fun s1 => l.flatMap fun s2 => if s1 < s2 then [(s1, s2), (s2, s1)] else []

/-- A correlation request. -/
def correlation [LT κ] [DecidableLT κ] (g : Graph κ) (l : List κ) : Graph κ :=
  (edgePairs l).foldl addEdge (l.foldl addNode g)

/-! ## Stimulus -/

/-- The weight of an edge. -/
def weight (g : Graph κ) (a b : κ) : ℚ := ((g.edgeCount a b).toNat : ℚ) / ((g.count a).toNat : ℚ)

/-- The weights of the edges that leave a node, added up. -/
def sumWeights (g : Graph κ) (a : κ) : ℚ := ∑ b ∈ g.neighbors a, g.weight a b

/-- What one neighbor gets when a node spreads `s`. -/
def share (g : Graph κ) (a b : κ) (s : ℚ) : ℚ := g.weight a b / g.sumWeights a * s

/-- The rent of every node is noted. -/
def collectRent (r : Rates) (g : Graph κ) : Ledger κ where
  keys := g.nodes
  rent := fun k => r.rent * g.importance k
  wages := fun _ => 0
  totalRent := ∑ k ∈ g.nodes, r.rent * g.importance k
  largestArity := g.largestArity

/-- The tokens are taken from the network. -/
def alienateTokens (g : Graph κ) : Graph κ := { g with tokens := 0 }

/-- `boost k` of every token that there is to spread is noted for `k`. -/
def distributeWages (g : Graph κ) (named : Finset κ) (boost : κ → ℚ) (l : Ledger κ) : Ledger κ :=
  l.pay named fun k => boost k * (g.tokens + l.totalRent)

/-- The importance of a node after rent and wages. -/
def settled (g : Graph κ) (l : Ledger κ) (k : κ) : ℚ := g.importance k - l.rent k + l.wages k

/-- What a node sets aside to spread. -/
def toSpread (r : Rates) (g : Graph κ) (l : Ledger κ) (k : κ) : ℚ :=
  g.settled l k * r.spreading l.largestArity (g.arity k)

/-- Every node pays its rent, gets its wages and sets aside what it will spread. -/
def consolidate (r : Rates) (g : Graph κ) (l : Ledger κ) : Graph κ :=
  { g with
    importance := fun k =>
      if k ∈ g.nodes then g.settled l k - toSpread r g l k else g.importance k
    stimuli := fun k => if k ∈ g.nodes then toSpread r g l k else g.stimuli k }

/-- Every node divides what it set aside among its neighbors. -/
def spread (g : Graph κ) : Graph κ :=
  { g with
    importance := fun v =>
      g.importance v + ∑ w ∈ g.nodes with v ∈ g.neighbors w, g.share w v (g.stimuli w)
    stimuli := fun k => if k ∈ g.nodes then 0 else g.stimuli k }

/-- A stimulus request that runs alone. -/
def stimulate (r : Rates) (g : Graph κ) (named : Finset κ) (boost : κ → ℚ) : Graph κ :=
  let l := g.collectRent r
  let l := g.distributeWages named boost l
  (g.alienateTokens.consolidate r l).spread

/-! ## One more co-occurrence -/

section initEdge

variable (g : Graph κ) (a b : κ)

@[simp] theorem initEdge_nodes : (g.initEdge a b).nodes = g.nodes := by
  unfold initEdge; split <;> rfl
@[simp] theorem initEdge_count : (g.initEdge a b).count = g.count := by
  unfold initEdge; split <;> rfl
@[simp] theorem initEdge_importance : (g.initEdge a b).importance = g.importance := by
  unfold initEdge; split <;> rfl
@[simp] theorem initEdge_stimuli : (g.initEdge a b).stimuli = g.stimuli := by
  unfold initEdge; split <;> rfl
@[simp] theorem initEdge_neighbors : (g.initEdge a b).neighbors = g.neighbors := by
  unfold initEdge; split <;> rfl
@[simp] theorem initEdge_edgeCount : (g.initEdge a b).edgeCount = g.edgeCount := by
  unfold initEdge; split <;> rfl
@[simp] theorem initEdge_tokens : (g.initEdge a b).tokens = g.tokens := by
  unfold initEdge; split <;> rfl

end initEdge

theorem addEdge_neighbors (g : Graph κ) (p : κ × κ) :
    b ∈ (g.addEdge p).neighbors a ↔ b ∈ g.neighbors a ∨ (a, b) = p := by
  obtain ⟨x, y⟩ := p
  simp only [addEdge, initEdge_neighbors, insertEdge, Prod.mk.injEq]
  by_cases ha : a = x
  · subst ha
    simp [or_comm]
  · simp [ha]

theorem addEdge_edgeCount (g : Graph κ) (p : κ × κ) (a b : κ) :
    (g.addEdge p).edgeCount a b = g.edgeCount a b + if (a, b) = p then 1 else 0 := by
  obtain ⟨x, y⟩ := p
  simp only [addEdge, initEdge_edgeCount, insertEdge, Prod.mk.injEq]
  by_cases ha : a = x
  · subst ha
    by_cases hb : b = y
    · simp [hb]
    · simp [hb]
  · simp [ha]

theorem addEdge_arity (g : Graph κ) (x y a : κ) :
    (g.addEdge (x, y)).arity a
      = if g.edgeCount x y + 1 = 1 ∧ a = x then g.arity x + 1 else g.arity a := by
  have hcount : (g.insertEdge x y).edgeCount x y = g.edgeCount x y + 1 := by simp [insertEdge]
  unfold addEdge initEdge
  simp only [hcount]
  by_cases hc : g.edgeCount x y + 1 = 1
  · rw [if_pos hc]
    by_cases ha : a = x
    · simp [hc, ha, insertEdge]
    · simp [ha, insertEdge]
  · rw [if_neg hc, if_neg (fun h => hc h.1)]
    rfl

theorem addEdge_largestArity (g : Graph κ) (x y : κ) :
    (g.addEdge (x, y)).largestArity
      = if g.edgeCount x y + 1 = 1 ∧ g.largestArity < g.arity x + 1 then g.arity x + 1
        else g.largestArity := by
  have hcount : (g.insertEdge x y).edgeCount x y = g.edgeCount x y + 1 := by simp [insertEdge]
  unfold addEdge initEdge
  simp only [hcount]
  by_cases hc : g.edgeCount x y + 1 = 1
  · rw [if_pos hc]
    simp only [hc, true_and]
    rfl
  · rw [if_neg hc, if_neg (fun h => hc h.1)]
    rfl

/-- The bound does not depend on the counters: it is raised wherever an arity is. -/
theorem addEdge_arity_le {x y : κ} (h : ∀ a, g.arity a ≤ g.largestArity) (a : κ) :
    (g.addEdge (x, y)).arity a ≤ (g.addEdge (x, y)).largestArity := by
  have ha := h a
  rw [addEdge_arity, addEdge_largestArity]
  by_cases hc : g.edgeCount x y + 1 = 1
  · simp only [hc, true_and]
    split <;> split <;> grind
  · simpa [hc] using ha

/-! ## The two loops of a correlation -/

theorem mem_foldl_addNode {l : List κ} : ∀ {g : Graph κ},
    k ∈ (l.foldl addNode g).nodes ↔ k ∈ g.nodes ∨ k ∈ l := by
  induction l with
  | nil => simp
  | cons a l ih =>
    intro g
    rw [List.foldl_cons, ih, addNode, Finset.mem_insert, List.mem_cons]
    tauto

theorem addNode_count (g : Graph κ) (a k : κ) :
    (g.addNode a).count k = g.count k + if k = a then 1 else 0 := by
  by_cases hk : k = a
  · simp [addNode, hk]
  · simp [addNode, hk]

theorem foldl_addNode_count (l : List κ) : ∀ (g : Graph κ),
    (l.foldl addNode g).count k = g.count k + UInt32.ofNat (l.count k) := by
  induction l with
  | nil => intro g; simp
  | cons a l ih =>
    intro g
    rw [List.foldl_cons, ih, addNode_count, List.count_cons]
    by_cases ha : k = a
    · rw [if_pos ha, if_pos (by simp [ha]), UInt32.ofNat_add, UInt32.add_assoc,
        UInt32.add_comm (UInt32.ofNat _)]
      rfl
    · rw [if_neg ha, if_neg (by simpa using Ne.symm ha), Nat.add_zero, UInt32.add_zero]

theorem foldl_addNode_links (l : List κ) : ∀ (g : Graph κ),
    (l.foldl addNode g).neighbors = g.neighbors ∧ (l.foldl addNode g).edgeCount = g.edgeCount ∧
      (l.foldl addNode g).arity = g.arity ∧
      (l.foldl addNode g).largestArity = g.largestArity := by
  induction l with
  | nil => intro g; exact ⟨rfl, rfl, rfl, rfl⟩
  | cons a l ih => intro g; exact ih (g.addNode a)

theorem foldl_addEdge_edgeCount (ps : List (κ × κ)) : ∀ (g : Graph κ),
    (ps.foldl addEdge g).edgeCount a b = g.edgeCount a b + UInt32.ofNat (ps.count (a, b)) := by
  induction ps with
  | nil => intro g; simp
  | cons p ps ih =>
    intro g
    rw [List.foldl_cons, ih, addEdge_edgeCount, List.count_cons]
    by_cases hp : (a, b) = p
    · rw [if_pos hp, if_pos (by simp [hp]), UInt32.ofNat_add, UInt32.add_assoc,
        UInt32.add_comm (UInt32.ofNat _)]
      rfl
    · rw [if_neg hp, if_neg (by simpa using Ne.symm hp), Nat.add_zero, UInt32.add_zero]

theorem foldl_addEdge_neighbors (ps : List (κ × κ)) : ∀ (g : Graph κ),
    b ∈ (ps.foldl addEdge g).neighbors a ↔ b ∈ g.neighbors a ∨ (a, b) ∈ ps := by
  induction ps with
  | nil => intro g; simp
  | cons p ps ih =>
    intro g
    rw [List.foldl_cons, ih, addEdge_neighbors, List.mem_cons, or_assoc]

theorem foldl_addEdge_count (ps : List (κ × κ)) : ∀ (g : Graph κ),
    (ps.foldl addEdge g).count = g.count := by
  induction ps with
  | nil => intro g; rfl
  | cons p ps ih =>
    intro g
    rw [List.foldl_cons, ih, addEdge, initEdge_count]
    rfl

theorem foldl_addEdge_nodes (ps : List (κ × κ)) : ∀ (g : Graph κ),
    (ps.foldl addEdge g).nodes = g.nodes := by
  induction ps with
  | nil => intro g; rfl
  | cons p ps ih =>
    intro g
    rw [List.foldl_cons, ih, addEdge, initEdge_nodes]
    rfl

/-! ## The pairs of a list -/

/-- How often one ordered pair is hit by two nested loops over lists. -/
theorem sum_sum_ite (l l' : List κ) (a b : κ) :
    (l.map fun x => (l'.map fun y => if x = a ∧ y = b then 1 else 0).sum).sum
      = l.count a * l'.count b := by
  have hinner : ∀ x, (l'.map fun y => if x = a ∧ y = b then 1 else 0).sum
      = if x = a then l'.count b else 0 := by
    intro x
    by_cases hx : x = a
    · simp only [hx, true_and, if_true]
      induction l' with
      | nil => rfl
      | cons y l' ih => simp [ih, List.count_cons, Nat.add_comm]
    · simp [hx]
  simp only [hinner]
  induction l with
  | nil => simp
  | cons x l ih =>
    rw [List.map_cons, List.sum_cons, ih, List.count_cons]
    by_cases hx : x = a
    · simp [hx, Nat.add_mul, Nat.add_comm]
    · simp [hx]

section order

variable [LT κ] [DecidableLT κ]

omit [DecidableEq κ] in
theorem mem_edgePairs [Std.Asymm (α := κ) (· < ·)] [Std.Trichotomous (α := κ) (· < ·)]
    {l : List κ} : (a, b) ∈ edgePairs l ↔ a ≠ b ∧ a ∈ l ∧ b ∈ l := by
  simp only [edgePairs, List.mem_flatMap]
  constructor
  · rintro ⟨x, hx, y, hy, hp⟩
    by_cases hlt : x < y
    · have hne : x ≠ y := by
        rintro rfl
        exact Std.Asymm.asymm x x hlt hlt
      rw [if_pos hlt] at hp
      simp only [List.mem_cons, Prod.mk.injEq, List.not_mem_nil, or_false] at hp
      rcases hp with ⟨rfl, rfl⟩ | ⟨rfl, rfl⟩
      · exact ⟨hne, hx, hy⟩
      · exact ⟨hne.symm, hy, hx⟩
    · rw [if_neg hlt] at hp
      exact absurd hp (List.not_mem_nil)
  · rintro ⟨hne, ha, hb⟩
    by_cases hlt : a < b
    · exact ⟨a, ha, b, hb, by simp [hlt]⟩
    · by_cases hlt' : b < a
      · exact ⟨b, hb, a, ha, by simp [hlt']⟩
      · exact absurd (Std.Trichotomous.trichotomous a b hlt hlt') hne

/-- **Each pair of occurrences of two different handles is added once in each direction.** -/
theorem count_edgePairs [Std.Asymm (α := κ) (· < ·)] [Std.Trichotomous (α := κ) (· < ·)]
    (l : List κ) (a b : κ) :
    (edgePairs l).count (a, b) = if a = b then 0 else l.count a * l.count b := by
  have hpair : ∀ x y, (if x < y then [(x, y), (y, x)] else []).count (a, b)
      = if a = b then 0 else if a < b then if x = a ∧ y = b then 1 else 0
        else if x = b ∧ y = a then 1 else 0 := by
    intro x y
    have hasymm : ∀ c d : κ, c < d → ¬ d < c := Std.Asymm.asymm
    have htri : ∀ c d : κ, ¬ c < d → ¬ d < c → c = d := Std.Trichotomous.trichotomous
    by_cases hlt : x < y
    · rw [if_pos hlt]
      simp only [List.count_cons, List.count_nil, beq_iff_eq, Prod.mk.injEq]
      grind
    · rw [if_neg hlt, List.count_nil]
      grind
  simp only [edgePairs, List.count_flatMap, Function.comp_def, hpair]
  by_cases hab : a = b
  · simp [hab]
  · by_cases hlt : a < b
    · simp only [hab, if_false, hlt, if_true, sum_sum_ite]
    · simp only [hab, if_false, hlt, sum_sum_ite, Nat.mul_comm]

end order

end Graph

end AttentionBroker
