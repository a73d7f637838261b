import Mathlib.Algebra.BigOperators.Group.List.Basic
import Mathlib.Algebra.Ring.Int.Defs
import AttentionBroker.Hebbian.Network

/-!
# `TokenSpreader`

`attention_broker_server/StimulusSpreader.{h,cc}`. A stimulus request is a call of
`spreadStimuli`. It traverses the network three times, once to collect rent, once to
consolidate rent and wages and once to spread. In between it distributes the wages. Rents
and wages wait in `importanceChanges`, a trie that belongs to the call.

`Stage` cuts the call at these phases, for the claims about calls that overlap.
-/

namespace AttentionBroker

open Infra

/-! ## Constants -/

namespace AttentionBrokerServer

def rentRate : ImportanceType := 1 / 10
def spreadingRateLowerbound : ImportanceType := 1 / 100
def spreadingRateUpperbound : ImportanceType := 1 / 10

end AttentionBrokerServer

/-! ## Requests -/

/--
A count of a request.

The message definition is generated code. The range covers a signed and an unsigned
32-bit field.
-/
abbrev Count := { n : Int // -2 ^ 31 ≤ n ∧ n < 2 ^ 32 }

/-- `"SUM"`. -/
def sumKey : Key := [83, 85, 77]

/-- `dasproto::HandleCount`: a map from handles to counts, in the order it is iterated. -/
structure HandleCount where
  handleCount : List (Key × Count)
  nodup : (handleCount.map Prod.fst).Nodup
deriving DecidableEq

namespace HandleCount

/-- `handle_count().find(key)`. -/
def find (request : HandleCount) (key : Key) : Option Count := request.handleCount.lookup key

/-- The entries other than `SUM`. -/
def stimuli (request : HandleCount) : List (Key × Count) :=
  request.handleCount.filter fun e => e.1 ≠ sumKey

/-- The sum of the counts other than `SUM`. -/
def total (request : HandleCount) : Int := (request.stimuli.map fun e => e.2.val).sum

end HandleCount

/-! ## Data of a call -/

/-- `TokenSpreader::ImportanceChanges`. -/
structure ImportanceChanges where
  rent : ImportanceType
  wages : ImportanceType

/-- `ImportanceChanges::merge`. -/
def ImportanceChanges.merge (this other : ImportanceChanges) : ImportanceChanges :=
  { rent := this.rent + other.rent, wages := this.wages + other.wages }

/-- `TokenSpreader::StimuliData`, with the objects its trie points to. -/
structure StimuliData where
  rentRate : ImportanceType
  totalRent : ImportanceType
  importanceChanges : HandleTrie Nat
  changes : Pool ImportanceChanges
  largestArity : UInt32
  spreadingRateLowerbound : ImportanceType
  spreadingRateRangeSize : ImportanceType
  toSpread : ImportanceType
  sumWeights : ImportanceType

namespace StimuliData

/-- `data` as `spread_stimuli` sets it up. `toSpread` and `sumWeights` are set before use. -/
def init (net : HebbianNetwork) : StimuliData where
  rentRate := AttentionBrokerServer.rentRate
  totalRent := 0
  importanceChanges := newHandleTrie
  changes := Pool.empty { rent := 0, wages := 0 }
  largestArity := net.largestArity
  spreadingRateLowerbound := AttentionBrokerServer.spreadingRateLowerbound
  spreadingRateRangeSize :=
    AttentionBrokerServer.spreadingRateUpperbound - AttentionBrokerServer.spreadingRateLowerbound
  toSpread := 0
  sumWeights := 0

/-- `importance_changes->insert(key, new ImportanceChanges(rent, wages))`. -/
def insertChanges (data : StimuliData) (key : Key) (rent wages : ImportanceType) :
    Except Fault StimuliData := do
  let (_, trie, changes) ← data.importanceChanges.insertNew ImportanceChanges.merge key
    { rent := rent, wages := wages } data.changes
  .ok { data with importanceChanges := trie, changes := changes }

/-- The part of its importance a node of this arity spreads. -/
def spreadingRate (data : StimuliData) (arity : UInt32) : ImportanceType :=
  let arityRatio := (arity.toNat : ImportanceType) / (data.largestArity.toNat : ImportanceType)
  data.spreadingRateLowerbound + data.spreadingRateRangeSize * arityRatio

end StimuliData

namespace TokenSpreader

/-! ## Visit functions -/

/-- The result of a visit. -/
abbrev Visit := Except Fault (Bool × HebbianNetwork × StimuliData)

/-- `collect_rent`. -/
def collectRent (node : TrieNode Nat) : HebbianNetwork × StimuliData → Visit
  | (net, data) => do
    let value ← deref node.value
    let rent := data.rentRate * (net.node value).importance
    let data := { data with totalRent := data.totalRent + rent }
    let wages : ImportanceType := 0
    let data ← data.insertChanges node.suffix rent wages
    .ok (false, net, data)

/-- `consolidate_rent_and_wages`. -/
def consolidateRentAndWages (node : TrieNode Nat) : HebbianNetwork × StimuliData → Visit
  | (net, data) => do
    let value ← deref node.value
    let changes ← deref (← data.importanceChanges.lookup node.suffix)
    let changes := data.changes.cell changes
    let importance := (net.node value).importance - changes.rent + changes.wages
    let toSpread := importance * data.spreadingRate (net.node value).arity
    let net := net.modifyNode value fun n =>
      { n with importance := importance - toSpread, stimuliToSpread := toSpread }
    .ok (false, net, data)

/-- `(double) edge->count / edge->node1->count`. -/
def weight (net : HebbianNetwork) (edge : Edge) : Except Fault ImportanceType := do
  let node1 ← deref edge.node1
  .ok ((edge.count.toNat : ImportanceType) / ((net.node node1).count.toNat : ImportanceType))

/-- `sum_weights`. -/
def sumWeights (node : TrieNode Nat) : HebbianNetwork × StimuliData → Visit
  | (net, data) => do
    let edge := net.edge (← deref node.value)
    let w ← weight net edge
    .ok (false, net, { data with sumWeights := data.sumWeights + w })

/-- `deliver_stimulus`. -/
def deliverStimulus (node : TrieNode Nat) : HebbianNetwork × StimuliData → Visit
  | (net, data) => do
    let edge := net.edge (← deref node.value)
    let w ← weight net edge
    let stimulus := (w / data.sumWeights) * data.toSpread
    let node2 ← deref edge.node2
    let net := net.modifyNode node2 fun n => { n with importance := n.importance + stimulus }
    .ok (false, net, data)

/-- `consolidate_stimulus`. -/
def consolidateStimulus (node : TrieNode Nat) : HebbianNetwork × StimuliData → Visit
  | (net, data) => do
    let value ← deref node.value
    let neighbors := (net.node value).neighbors
    let data := { data with toSpread := (net.node value).stimuliToSpread, sumWeights := 0 }
    let (net, data) ← neighbors.traverse true sumWeights (net, data)
    let (net, data) ← neighbors.traverse true deliverStimulus (net, data)
    .ok (false, net.modifyNode value fun n => { n with stimuliToSpread := 0 }, data)

/-! ## The phases -/

/-- The body of the loop in `distribute_wages`. -/
def distributeWage (totalToSpread : ImportanceType) (totalWages : Nat) (data : StimuliData)
    (entry : Key × Count) : Except Fault StimuliData :=
  if entry.1 ≠ sumKey then
    let normalizedAmount := (entry.2.val : ImportanceType) * totalToSpread / totalWages
    data.insertChanges entry.1 0 normalizedAmount
  else .ok data

/-- `TokenSpreader::distribute_wages`. `total_wages` is an `unsigned int`. -/
def distributeWages (request : HandleCount) (totalToSpread : ImportanceType)
    (data : StimuliData) : Except Fault StimuliData :=
  match request.find sumKey with
  | none => .error (.runtimeError "Missing 'SUM' key in HandleCount request")
  | some sum =>
    let totalWages := (sum.val % 2 ^ 32).toNat
    request.handleCount.foldlM (distributeWage totalToSpread totalWages) data

/-- The set up of a call and its first traversal. -/
def collectRentPhase : NetM StimuliData := do
  let data := StimuliData.init (← get)
  HebbianNetwork.visitNodes true collectRent data

/-- `alienate_tokens` and `distribute_wages`. -/
def distributeWagesPhase (request : HandleCount) (data : StimuliData) : NetM StimuliData := do
  let totalToSpread ← HebbianNetwork.alienateTokens
  match distributeWages request (totalToSpread + data.totalRent) data with
  | .ok data => pure data
  | .error e => throw e

/-- The second traversal. -/
def consolidatePhase (data : StimuliData) : NetM StimuliData :=
  HebbianNetwork.visitNodes true consolidateRentAndWages data

/-- The third traversal. -/
def spreadPhase (data : StimuliData) : NetM StimuliData :=
  HebbianNetwork.visitNodes true consolidateStimulus data

/-- `TokenSpreader::spread_stimuli` on the network of the request. -/
def spreadStimuli (request : HandleCount) : NetM Unit := do
  let data ← collectRentPhase
  let data ← distributeWagesPhase request data
  let data ← consolidatePhase data
  discard (spreadPhase data)

/-! ## The tries in any order -/

/-- `visit_nodes`, with the nodes in this order. -/
def visitNodesIn {δ : Type} (o : HandleTrie.Order Nat)
    (visit : TrieNode Nat → HebbianNetwork × δ → Except Fault (Bool × HebbianNetwork × δ))
    (data : δ) : NetM δ := fun net =>
  match net.nodes.traverseIn o visit (net, data) with
  | .ok (net, data) => .ok data net
  | .error e => .error e net

/-- `consolidate_stimulus`, with the neighbors in this order. -/
def consolidateStimulusIn (o : HandleTrie.Order Nat) (node : TrieNode Nat) :
    HebbianNetwork × StimuliData → Visit
  | (net, data) => do
    let value ← deref node.value
    let neighbors := (net.node value).neighbors
    let data := { data with toSpread := (net.node value).stimuliToSpread, sumWeights := 0 }
    let (net, data) ← neighbors.traverseIn o sumWeights (net, data)
    let (net, data) ← neighbors.traverseIn o deliverStimulus (net, data)
    .ok (false, net.modifyNode value fun n => { n with stimuliToSpread := 0 }, data)

/-- `spread_stimuli`, with every trie in this order. -/
def spreadStimuliIn (o : HandleTrie.Order Nat) (request : HandleCount) : NetM Unit := do
  let data := StimuliData.init (← get)
  let data ← visitNodesIn o collectRent data
  let data ← distributeWagesPhase request data
  let data ← visitNodesIn o consolidateRentAndWages data
  discard (visitNodesIn o (consolidateStimulusIn o) data)

/-! ## A call in stages -/

/-- How far a call of `spread_stimuli` is, with its private data. -/
inductive Stage where
  | ready
  | rentCollected (data : StimuliData)
  | wagesDistributed (data : StimuliData)
  | consolidated (data : StimuliData)
  | finished

/-- The next phase of a call. -/
def Stage.advance (request : HandleCount) : Stage → NetM Stage
  | ready => do return rentCollected (← collectRentPhase)
  | rentCollected data => do return wagesDistributed (← distributeWagesPhase request data)
  | wagesDistributed data => do return consolidated (← consolidatePhase data)
  | consolidated data => do discard (spreadPhase data); return finished
  | finished => return finished

end TokenSpreader

end AttentionBroker
