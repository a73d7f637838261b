import AttentionBroker.Infra.Pool
import AttentionBroker.Infra.Loop
import AttentionBroker.Infra.Walk
import AttentionBroker.Infra.SimplePath
import AttentionBroker.Infra.Mutex
import AttentionBroker.Trie.Basic
import AttentionBroker.Trie.Insert
import AttentionBroker.Trie.Lookup
import AttentionBroker.Trie.Traverse
import AttentionBroker.Trie.Refinement
import AttentionBroker.Trie.Canonical
import AttentionBroker.Trie.Enumeration
import AttentionBroker.Trie.KeySafety
import AttentionBroker.Trie.LetterCase
import AttentionBroker.Trie.Readers
import AttentionBroker.Trie.TraverseReader
import AttentionBroker.Trie.Locks
import AttentionBroker.Infra.Owners
import AttentionBroker.Trie.Threads
import AttentionBroker.Trie.Interference
import AttentionBroker.Trie.Interleaving
import AttentionBroker.Trie.Linearization
import AttentionBroker.Trie.Progress
import AttentionBroker.Trie.TraverseThreads
import AttentionBroker.Trie.Ownership
import AttentionBroker.Trie.ConcurrentShape
import AttentionBroker.Hebbian.Network
import AttentionBroker.Hebbian.Spreader
import AttentionBroker.Hebbian.Links
import AttentionBroker.Hebbian.Graph
import AttentionBroker.Hebbian.Refinement
import AttentionBroker.Hebbian.Ledger
import AttentionBroker.Hebbian.Cycle
import AttentionBroker.Hebbian.Requests
import AttentionBroker.Hebbian.Counting
import AttentionBroker.Hebbian.Representation
import AttentionBroker.Hebbian.Tokens
import AttentionBroker.Hebbian.Conservation
import AttentionBroker.Hebbian.Formula
import AttentionBroker.Hebbian.Confluence
import AttentionBroker.Hebbian.Notes
import AttentionBroker.Hebbian.Overlap
import AttentionBroker.Hebbian.StimulusSafety
import AttentionBroker.Hebbian.SpreadingRate
import AttentionBroker.Hebbian.Failures
import AttentionBroker.Hebbian.Atomicity
import AttentionBroker.Hebbian.EdgeRace
import AttentionBroker.Hebbian.CorrelationThreads
import AttentionBroker.Hebbian.CorrelationSteps
import AttentionBroker.Hebbian.ConcurrentCounting
import AttentionBroker.Hebbian.ArityRace
import AttentionBroker.Server.RequestQueue
import AttentionBroker.Server.WorkerThreads
import AttentionBroker.Server.AttentionBrokerServer
import AttentionBroker.Server.Contexts
import AttentionBroker.Server.GracefulStop
import AttentionBroker.Server.Shutdown
import AttentionBroker.Server.SelectRace
import AttentionBroker.Server.CorrelationService
import AttentionBroker.Server.ServiceCounting
import AttentionBroker.Node.MessageBroker
import AttentionBroker.Node.Broadcast
import AttentionBroker.Node.InboxThreads
import AttentionBroker.Node.InboxSteps
import AttentionBroker.Node.ConcurrentBroadcast
import AttentionBroker.Node.Broker
import AttentionBroker.Node.FailedSend
import AttentionBroker.Node.BrokerRace
import AttentionBroker.Node.PeerRaces
import AttentionBroker.Node.CacheNode
import AttentionBroker.Node.JoinNetwork
import AttentionBroker.Hasher.ExpressionHasher
import AttentionBroker.Hasher.HashableString
import AttentionBroker.Hasher.Handles
import AttentionBroker.Hebbian.Expressions
