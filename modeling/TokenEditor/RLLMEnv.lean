import TokenEditor.TEQuery
import TokenEditor.TECache

/-! The recursive context environment of `recursive_llm.cpp`. Context nodes live on a
heap of addresses (a freed node is `none`; addresses are never reused), the pool and the
roots are lists of addresses, and the callbacks an environment fires are logged. The
runtime context a creation call gets from `llama_new_context_with_model` is an argument
(`none` is `NULL`); that context is the one the node's editor drives. -/
namespace TokenEditor

/-- `rllm_relation_t`. -/
inductive RllmRelation
  | root | child | fork | peer
  deriving DecidableEq, Repr, Inhabited

/-- `rllm_state_t`. -/
inductive RllmState
  | idle | running | waiting | complete | error | suspended
  deriving DecidableEq, Repr, Inhabited

/-- `rllm_share_mode_t`. -/
inductive RllmShareMode
  | none | kvRead | kvCopy | tokensRead | tokensCopy | full
  deriving DecidableEq, Repr, Inhabited

/-- `rllm_error_t`. -/
inductive RllmError
  | ok | errorMaxDepth | errorMaxContexts | errorInvalidContext | errorInvalidParent
  | errorContextBusy | errorRecursionLimit | errorMemory | errorModel | errorDeadlock | errorTimeout
  deriving DecidableEq, Repr

/-- `rllm_msg_type_t`. -/
inductive RllmMsgType
  | tokens | text | completion | embedding | control | query | response
  deriving DecidableEq, Repr, Inhabited

/-- `rllm_message_t`: `data` is `NULL` when absent or not allocated. -/
structure RllmMessage where
  type : RllmMsgType
  sender : BitVec 32
  receiver : BitVec 32
  seqNum : BitVec 32
  dataSize : Nat
  data : Option (List UInt8)
  deriving DecidableEq, Repr, Inhabited

/-- `rllm_completion_params_t` without the sampler's floats. -/
structure RllmCompletionParams where
  nPredict : Nat
  stream : Bool
  timeoutMs : Nat
  deriving DecidableEq, Repr, Inhabited

/-- `rllm_ctx_config_t`. -/
structure RllmCtxConfig where
  nCtx : Nat
  nBatch : Nat
  nThreads : Nat
  shareMode : RllmShareMode
  completion : RllmCompletionParams
  inheritPrompt : Bool
  inheritSampling : Bool
  deriving DecidableEq, Repr, Inhabited

abbrev Addr := Nat

/-- `rllm_context_t`; the three callbacks are flags saying whether they are set. -/
structure RllmContext where
  id : BitVec 32
  relation : RllmRelation
  state : RllmState
  parent : Option Addr
  children : List Addr
  childrenCapacity : Nat
  depth : BitVec 32
  tokenEditor : Option TeContext
  config : RllmCtxConfig
  messageQueue : List RllmMessage
  queueHead : Nat
  queueTail : Nat
  queueCapacity : Nat
  startTime : Nat
  endTime : Nat
  tokensGenerated : Nat
  onToken : Bool
  onComplete : Bool
  onMessage : Bool
  deriving Inhabited

/-- `rllm_env_config_t`: the two limits the environment reads. -/
structure RllmEnvConfig where
  maxDepth : BitVec 32
  maxContexts : BitVec 32
  deriving DecidableEq, Repr

/-- A callback the environment fired. -/
inductive RllmEvent
  | contextCreate (a : Addr) | contextDestroy (a : Addr) | recursion (parent child : Addr)
  deriving DecidableEq, Repr

/-- `rllm_env_t`. `mallocFails` are the outcomes of the coming allocations. -/
structure RllmEnv where
  heap : Addr → Option RllmContext
  nextAddr : Addr
  contexts : List Addr
  contextCapacity : Nat
  nextCtxId : BitVec 32
  roots : List Addr
  config : RllmEnvConfig
  totalTokensProcessed : Nat
  totalContextsCreated : Nat
  totalRecursions : Nat
  peakDepth : Nat
  onContextCreate : Bool
  onContextDestroy : Bool
  onRecursion : Bool
  events : List RllmEvent
  mallocFails : List Bool

/-- One allocation: `false` when it returns `NULL`. -/
def rllmMalloc (env : RllmEnv) : Bool × RllmEnv :=
  (!env.mallocFails.headD false, { env with mallocFails := env.mallocFails.tail })

/-- Apply `f` to the node at `a`. -/
def RllmEnv.modify (env : RllmEnv) (a : Addr) (f : RllmContext → RllmContext) : RllmEnv :=
  { env with heap := Function.update env.heap a ((env.heap a).map f) }

/-- Log a callback when it is set. -/
def RllmEnv.fire (env : RllmEnv) (set : Bool) (e : RllmEvent) : RllmEnv :=
  if set then { env with events := env.events ++ [e] } else env

/-- `rllm_alloc_context`: a fresh idle node at the end of the pool. The id is taken
before the node's two arrays are allocated. -/
def rllmAllocContext (env : RllmEnv) : Option Addr × RllmEnv :=
  if env.config.maxContexts.toNat ≤ env.contexts.length then (none, env) else
  let (ok, env) := rllmMalloc env
  if !ok then (none, env) else
  let a := env.nextAddr
  let node : RllmContext :=
    { (default : RllmContext) with id := env.nextCtxId, state := .idle, childrenCapacity := 8
                                   queueCapacity := 32, messageQueue := List.replicate 32 default }
  let env := { env with nextAddr := a + 1, nextCtxId := env.nextCtxId + 1 }
  let (okChildren, env) := rllmMalloc env
  let (okQueue, env) := rllmMalloc env
  if !(okChildren && okQueue) then (none, env) else
  let (ok, env) := if env.contextCapacity ≤ env.contexts.length then
      let (ok, env) := rllmMalloc env
      (ok, if ok then { env with contextCapacity := max (env.contextCapacity * 2) 16 } else env)
    else (true, env)
  if !ok then (none, env) else
  (some a, { env with heap := Function.update env.heap a (some node)
                      contexts := env.contexts ++ [a]
                      totalContextsCreated := env.totalContextsCreated + 1 })

/-- The cleanup of a creation that failed after `rllm_alloc_context`: out of the pool, freed. -/
def rllmDiscard (env : RllmEnv) (a : Addr) : RllmEnv :=
  { env with contexts := env.contexts.erase a, heap := Function.update env.heap a none }

/-- `rllm_add_child`: a failed `realloc` of a full children array adds nothing. -/
def rllmAddChild (env : RllmEnv) (parent child : Addr) : Option RllmEnv := do
  let p ← env.heap parent
  let _ ← env.heap child
  let (ok, env, p) := if p.childrenCapacity ≤ p.children.length then
      let (ok, env) := rllmMalloc env
      (ok, env, if ok then { p with childrenCapacity := p.childrenCapacity * 2 } else p)
    else (true, env, p)
  if !ok then some env else
  let env := { env with heap := Function.update env.heap parent (some { p with children := p.children ++ [child] }) }
  some (env.modify child fun c => { c with parent := some parent, depth := p.depth + 1 })

/-- `rllm_remove_child`: unlink the first occurrence and clear its parent pointer. -/
def rllmRemoveChild (env : RllmEnv) (parent child : Addr) : Option RllmEnv := do
  let p ← env.heap parent
  if child ∈ p.children then do
    let env := { env with heap := Function.update env.heap parent (some { p with children := p.children.erase child }) }
    let _ ← env.heap child
    some (env.modify child fun c => { c with parent := none })
  else some env

/-- `rllm_free_context_internal`, children first, for at most `fuel` nested calls. -/
def rllmFreeContextInternal : Nat → (Addr → Option RllmContext) → Addr →
    Option (Addr → Option RllmContext)
  | 0, _, _ => none
  | fuel + 1, heap, a => do
    let node ← heap a
    let heap ← node.children.foldlM (fun h c => rllmFreeContextInternal fuel h c) heap
    some (Function.update heap a none)

/-- `rllm_init`: an empty pool of 16 slots and a root array of 8. -/
def rllmInit (config : RllmEnvConfig) (heap : List Bool) : Option RllmEnv :=
  let env : RllmEnv :=
    { heap := fun _ => none, nextAddr := 0, contexts := [], contextCapacity := 16, nextCtxId := 0
      roots := [], config := config, totalTokensProcessed := 0, totalContextsCreated := 0
      totalRecursions := 0, peakDepth := 0, onContextCreate := false, onContextDestroy := false
      onRecursion := false, events := [], mallocFails := heap }
  let (ok, env) := rllmMalloc env
  if !ok then none else
  let (okContexts, env) := rllmMalloc env
  let (okRoots, env) := rllmMalloc env
  if !(okContexts && okRoots) then none else
  some (rllmMalloc env).2

section
variable (M : LlamaModel)

/-- The editor `te_init` makes for a new node: `none` when it fails. -/
def rllmNewEditor (env : RllmEnv) (llamaCtx : LlamaContext) : Option TeContext × RllmEnv :=
  let (ed, heap) := teInit llamaCtx env.mallocFails
  (ed, { env with mallocFails := heap })

/-- `rllm_create_root`: roots past the eighth are not listed. -/
def rllmCreateRoot (env : RllmEnv) (config : RllmCtxConfig) (newCtx : Option LlamaContext) :
    Option Addr × RllmEnv :=
  match rllmAllocContext env with
  | (none, env) => (none, env)
  | (some a, env) =>
  let env := env.modify a fun c => { c with relation := .root, config := config, depth := 0 }
  match newCtx with
  | none => (none, rllmDiscard env a)
  | some lctx =>
  match rllmNewEditor env lctx with
  | (none, env) => (none, rllmDiscard env a)
  | (some ed, env) =>
  let env := env.modify a fun c => { c with tokenEditor := some ed }
  let env := if env.roots.length < 8 then { env with roots := env.roots ++ [a] } else env
  (some a, env.fire env.onContextCreate (.contextCreate a))

/-- The inheritance step of `rllm_spawn_child`: the parent's state blob for the `KV_COPY`
and `FULL` modes, a copy of its tokens for `TOKENS_COPY` and `FULL`. -/
def rllmInherit (env : RllmEnv) (p : RllmContext) (mode : RllmShareMode) (ed : TeContext) :
    Option (TeContext × RllmEnv) := do
  let pte ← p.tokenEditor
  let (ed, env) := if mode = .kvCopy ∨ mode = .full then
      let (ok, env) := rllmMalloc env
      (if ok then { ed with llamaCtx := { ed.llamaCtx with kvCells := pte.llamaCtx.kvCells } } else ed, env)
    else (ed, env)
  if (mode = .tokensCopy ∨ mode = .full) ∧ 0 < pte.nTokens then
    let (ok, env) := rllmMalloc env
    if !ok then some (ed, env) else do
    let (_, toks) ← teGetTokens pte { start := 0, stop := toPos pte.nTokens, seqId := -1 } pte.nTokens
    let (_, ed) ← teInsertTokens M { ed with mallocFails := env.mallocFails } 0 0 (some toks) toks.length
    some (ed, { env with mallocFails := ed.mallocFails })
  else some (ed, env)

/-- `rllm_spawn_child`: refused at `parent->depth + 1 >= max_depth`. -/
def rllmSpawnChild (env : RllmEnv) (parent : Option Addr) (config : RllmCtxConfig)
    (newCtx : Option LlamaContext) : Option (Option Addr × RllmEnv) :=
  match parent with
  | none => some (none, env)
  | some pa => do
  let p ← env.heap pa
  if env.config.maxDepth.toNat ≤ (p.depth + 1).toNat then some (none, env) else
  match rllmAllocContext env with
  | (none, env) => some (none, env)
  | (some a, env) =>
  let env := env.modify a fun c => { c with relation := .child, config := config }
  match newCtx with
  | none => some (none, rllmDiscard env a)
  | some lctx =>
  match rllmNewEditor env lctx with
  | (none, env) => some (none, rllmDiscard env a)
  | (some ed, env) => do
  let (ed, env) ← rllmInherit M env p config.shareMode ed
  let env := env.modify a fun c => { c with tokenEditor := some ed }
  let env ← rllmAddChild env pa a
  let c ← env.heap a
  let env := { env with peakDepth := max c.depth.toNat env.peakDepth
                        totalRecursions := env.totalRecursions + 1 }
  let env := env.fire env.onContextCreate (.contextCreate a)
  some (some a, env.fire env.onRecursion (.recursion pa a))

/-- `rllm_fork`: a `FULL` child of the source's parent, relabelled. -/
def rllmFork (env : RllmEnv) (source : Addr) (newCtx : Option LlamaContext) :
    Option (Option Addr × RllmEnv) := do
  let s ← env.heap source
  match ← rllmSpawnChild M env s.parent { s.config with shareMode := .full } newCtx with
  | (none, env) => some (none, env)
  | (some a, env) => some (some a, env.modify a fun c => { c with relation := .fork })

/-- `rllm_create_peer`: same depth and parent as the reference, added to that parent. -/
def rllmCreatePeer (env : RllmEnv) (peer : Addr) (config : RllmCtxConfig)
    (newCtx : Option LlamaContext) : Option (Option Addr × RllmEnv) := do
  let p ← env.heap peer
  match rllmAllocContext env with
  | (none, env) => some (none, env)
  | (some a, env) =>
  let env := env.modify a fun c =>
    { c with relation := .peer, config := config, depth := p.depth, parent := p.parent }
  match newCtx with
  | none => some (none, rllmDiscard env a)
  | some lctx =>
  match rllmNewEditor env lctx with
  | (none, env) => some (none, rllmDiscard env a)
  | (some ed, env) => do
  let env := env.modify a fun c => { c with tokenEditor := some ed }
  let env ← (match p.parent with
    | some pp => rllmAddChild env pp a
    | none => some env)
  some (some a, env.fire env.onContextCreate (.contextCreate a))

end

/-- `rllm_destroy`: unlink from the parent and the roots, drop from the pool, free the
subtree. The freed descendants stay in the pool. The recursion gets `max_depth + 1` rounds,
enough for every subtree whose links go down one level at a time below `max_depth`. -/
def rllmDestroy (env : RllmEnv) (a : Addr) : Option (RllmError × RllmEnv) := do
  let node ← env.heap a
  let env := env.fire env.onContextDestroy (.contextDestroy a)
  let env ← (match node.parent with
    | some p => rllmRemoveChild env p a
    | none => some env)
  let env := { env with roots := env.roots.erase a, contexts := env.contexts.erase a }
  let heap ← rllmFreeContextInternal (env.config.maxDepth.toNat + 1) env.heap a
  some (.ok, { env with heap := heap })

/-- `rllm_count_descendants`, for at most `fuel` nested calls. -/
def rllmCountDescendants : Nat → (Addr → Option RllmContext) → Addr → Option Nat
  | 0, _, _ => none
  | fuel + 1, heap, a => do
    let node ← heap a
    node.children.foldlM (fun n c => do pure (n + 1 + (← rllmCountDescendants fuel heap c))) 0

/-- `rllm_walk_tree`: the visitor's calls `(node, depth)` in order, for at most `fuel` nested
calls. The visitor is client code; the model returns what it is passed. -/
def rllmWalkTree : Nat → (Addr → Option RllmContext) → Addr → Option (List (Addr × BitVec 32))
  | 0, _, _ => none
  | fuel + 1, heap, a => do
    let node ← heap a
    node.children.foldlM (fun calls c => do pure (calls ++ (← rllmWalkTree fuel heap c)))
      [(a, node.depth)]

/-- `rllm_find_context` with the predicate `p`, for at most `fuel` nested calls: the node itself,
then its children's subtrees until one of them finds a node. -/
def rllmFindContext (p : Addr → Bool) : Nat → (Addr → Option RllmContext) → Addr →
    Option (Option Addr)
  | 0, _, _ => none
  | fuel + 1, heap, a =>
    if p a then some (some a) else do
    let node ← heap a
    node.children.foldlM (fun found c => match found with
      | some r => pure (some r)
      | none => rllmFindContext p fuel heap c) none

/-- `rllm_get_root`: follow parent pointers, for at most `fuel` rounds of the loop. -/
def rllmGetRoot : Nat → (Addr → Option RllmContext) → Addr → Option Addr
  | 0, heap, a => do
    let node ← heap a
    if node.parent.isNone then some a else none
  | fuel + 1, heap, a => do
    let node ← heap a
    match node.parent with
    | none => some a
    | some p => rllmGetRoot fuel heap p

/-- `rllm_get_context`: the first node of the pool with id `id`; `none` when the scan reads a
freed node. -/
def rllmGetContext (env : RllmEnv) (id : BitVec 32) : Option (Option Addr) :=
  go env.contexts
where
  go : List Addr → Option (Option Addr)
    | [] => some none
    | a :: as => do
      let c ← env.heap a
      if c.id = id then some (some a) else go as

/-! Messages. Pointers are `Option Addr` (`none` is `NULL`); a call through a freed node has no
result. The callbacks are client code: the model returns what they are passed. -/

/-- The `data` pointer `rllm_send_message` stores: a fresh copy of `data_size` bytes when the
data is present and non-empty (`NULL` when that allocation fails), else the caller's pointer. -/
def rllmCopyData (env : RllmEnv) (msg : RllmMessage) : Option (Option (List UInt8) × RllmEnv) :=
  match msg.data with
  | some bytes =>
    if 0 < msg.dataSize then
      let (ok, env) := rllmMalloc env
      if ok then (blockRead bytes 0 msg.dataSize).map fun b => (some b, env) else some (none, env)
    else some (msg.data, env)
  | none => some (none, env)

/-- `rllm_send_message`: `ERROR_MEMORY` when `to`'s ring holds `queue_capacity - 1` messages.
The last component is the slot index handed to `on_message` when it is set: `queue_tail - 1`
in `size_t`, read after the tail has moved. -/
def rllmSendMessage (env : RllmEnv) (src dst : Option Addr) (msg : Option RllmMessage) :
    Option (RllmError × RllmEnv × Option Nat) :=
  match src, dst, msg with
  | some s, some d, some msg => do
    let f ← env.heap s
    let t ← env.heap d
    let nextTail := (t.queueTail + 1) % t.queueCapacity
    if nextTail = t.queueHead then some (.errorMemory, env, none) else do
    let msg := { msg with sender := f.id, receiver := t.id }
    let (data, env) ← rllmCopyData env msg
    let queue ← blockWrite t.messageQueue t.queueTail [{ msg with data := data }]
    let env := env.modify d fun c => { c with messageQueue := queue, queueTail := nextTail }
    some (.ok, env, if t.onMessage then some ((nextTail + 2 ^ 64 - 1) % 2 ^ 64) else none)
  | _, _, _ => some (.errorInvalidContext, env, none)

/-- `rllm_send_tokens`: the token array's bytes, `4 n` of them. -/
def rllmSendTokens (env : RllmEnv) (src dst : Option Addr) (tokens : Option (List Int32))
    (nTokens : Nat) : Option (RllmError × RllmEnv × Option Nat) :=
  rllmSendMessage env src dst
    (some ⟨.tokens, 0, 0, 0, nTokens * 4, tokens.map (·.flatMap (u32Bytes ·.toNat))⟩)

/-- `rllm_send_text`. -/
def rllmSendText (env : RllmEnv) (src dst : Option Addr) (text : Option (List UInt8)) (len : Nat) :
    Option (RllmError × RllmEnv × Option Nat) :=
  rllmSendMessage env src dst (some ⟨.text, 0, 0, 0, len, text⟩)

/-- `rllm_has_messages`. -/
def rllmHasMessages (env : RllmEnv) : Option Addr → Option Bool
  | none => some false
  | some a => (env.heap a).map fun c => c.queueHead ≠ c.queueTail

/-- `rllm_recv_message`: the slot at `queue_head`, which then advances. On an empty ring the
call times out when `timeoutMs > 0`, and otherwise spins until another caller sends: it has no
result here. -/
def rllmRecvMessage (env : RllmEnv) (a : Option Addr) (timeoutMs : Nat) :
    Option (RllmError × Option RllmMessage × RllmEnv) :=
  match a with
  | none => some (.errorInvalidContext, none, env)
  | some a => do
    let c ← env.heap a
    if c.queueHead = c.queueTail then
      if 0 < timeoutMs then some (.errorTimeout, none, env) else none
    else do
      let m ← c.messageQueue[c.queueHead]?
      some (.ok, some m, env.modify a fun c => { c with queueHead := (c.queueHead + 1) % c.queueCapacity })

end TokenEditor
