import TokenEditor.TEBlock
import TokenEditor.TEContext
import TokenEditor.TEEdit
import TokenEditor.TEHistory
import TokenEditor.TECache
import TokenEditor.TEQuery
import TokenEditor.TEMachine
import TokenEditor.RLLMEnv
import TokenEditor.TESpec
import TokenEditor.TEEditSpec
import TokenEditor.TEHistorySpec
import TokenEditor.TEUndoLaw
import TokenEditor.TEReplaceLaw
import TokenEditor.TEErrors
import TokenEditor.TECoherence
import TokenEditor.RLLMMachine
import TokenEditor.RLLMForest
import TokenEditor.RLLMTree
import TokenEditor.RLLMTreeSteps
import TokenEditor.RLLMWellFormed
import TokenEditor.TEShape
import TokenEditor.TELog
import TokenEditor.TEBufferLaws
import TokenEditor.TEFormats
import TokenEditor.TEJson
import TokenEditor.TEFind
import TokenEditor.RLLMIds
import TokenEditor.RLLMMailbox
import TokenEditor.RLLMRings
import TokenEditor.TESequences
import TokenEditor.RLLMWalk
import TokenEditor.RLLMSpawn
import TokenEditor.TELogits
import TokenEditor.RLLMComplete
import TokenEditor.TESnapshotRuns
import TokenEditor.RLLMShutdown
import TokenEditor.RLLMStats
import TokenEditor.RLLMRefine
import TokenEditor.RLLMPool
import TokenEditor.TEUndoRuns
import TokenEditor.TECacheRuns
