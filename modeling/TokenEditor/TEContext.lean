import TokenEditor.TEBlock

/-! The token editor's state (`te_context_t`) and the helpers every mutator shares:
the allocator, `te_ensure_capacity`, `te_record_edit` and `te_init`. The attention
cache is a list of cells as the runtime keeps it; the tokenizer and the vocabulary are
fixed functions of the loaded model. -/
namespace TokenEditor

/-- `te_error_t`. -/
inductive TeError
  | ok | errorInvalidContext | errorInvalidPosition | errorInvalidToken | errorBufferTooSmall
  | errorKvCacheFull | errorSequenceNotFound | errorAllocationFailed | errorReadonly
  deriving DecidableEq, Repr

/-- `te_token_info_t`, without the `logit` and `prob` floats no mutator writes. -/
structure TeTokenInfo where
  id : Int32
  pos : Int32
  seqId : Int32
  hasLogit : Bool
  flags : Nat
  deriving DecidableEq, Repr, Inhabited

def teFlagBos : Nat := 1 <<< 0
def teFlagEos : Nat := 1 <<< 1
def teFlagSpecial : Nat := 1 <<< 2
def teFlagControl : Nat := 1 <<< 3
def teFlagUserData : Nat := 1 <<< 4

/-- `te_range_t`: `[start, end)` of sequence `seqId`. -/
structure TeRange where
  start : Int32
  stop : Int32
  seqId : Int32
  deriving DecidableEq, Repr

/-- `te_op_type_t`; only the first three are ever recorded. -/
inductive TeOpType
  | insert | delete | replace | move | copy | swap
  deriving DecidableEq, Repr

/-- `te_edit_op_t`: `tokens` is `NULL` when its allocation failed. -/
structure TeEditOp where
  type : TeOpType
  source : TeRange
  dest : TeRange
  tokens : Option (List Int32)
  nTokens : Nat
  deriving DecidableEq, Repr

/-- The loaded model as the editor reads it: tokenizer, pieces and vocabulary attributes. -/
structure LlamaModel where
  tokenize : List UInt8 → Bool → List Int32
  tokenToPiece : Int32 → List UInt8
  tokenIsEog : Int32 → Bool
  tokenBos : Int32
  tokenIsControl : Int32 → Bool
  tokenIsSpecial : Int32 → Bool
  nVocab : Nat
  deriving Inhabited

/-- A cell of the attention cache: a position, its token and the sequences holding it. -/
structure KvCell where
  pos : Int32
  token : Int32
  seqs : List Int32
  deriving DecidableEq, Repr

/-- The runtime side of `ctx->llama_ctx`: the cache cells, and the outcomes of the
coming `llama_decode` calls (`true` fails). -/
structure LlamaContext where
  kvCells : List KvCell
  decodeFails : List Bool
  deriving DecidableEq, Repr

/-- `te_context_t`. `tokens` and `tokenInfo` are the whole allocated blocks; the
callbacks are left out. `mallocFails` are the outcomes of the coming allocations
(`true` returns `NULL`); past its end every allocation succeeds. -/
structure TeContext where
  llamaCtx : LlamaContext
  tokens : List Int32
  tokenInfo : List TeTokenInfo
  nTokens : Nat
  capacity : Nat
  history : List TeEditOp
  historyTail : Option TeEditOp
  redoStack : List TeEditOp
  historyLimit : Nat
  activeSequences : List Int32
  nSequences : Nat
  readonly : Bool
  kvCacheDirty : Bool
  logitsValid : Bool
  suppressHistory : Bool
  mallocFails : List Bool
  deriving DecidableEq, Repr

/-- The buffer a client sees: `tokens[0 .. n_tokens)`. -/
def TeContext.view (ctx : TeContext) : List Int32 := ctx.tokens.take ctx.nTokens

/-- Every allocation from now on succeeds. -/
def TeContext.AllocOk (ctx : TeContext) : Prop := true ∉ ctx.mallocFails

/-- One `malloc`, `calloc` or `realloc`: `false` when it returns `NULL`. -/
def teMalloc (ctx : TeContext) : Bool × TeContext :=
  (!ctx.mallocFails.headD false, { ctx with mallocFails := ctx.mallocFails.tail })

theorem teMalloc_fst_of_allocOk {ctx : TeContext} (h : ctx.AllocOk) : (teMalloc ctx).1 = true := by
  unfold TeContext.AllocOk at h
  cases hl : ctx.mallocFails <;> simp_all [teMalloc]

theorem allocOk_teMalloc {ctx : TeContext} (h : ctx.AllocOk) : (teMalloc ctx).2.AllocOk :=
  fun ht => h (List.mem_of_mem_tail ht)

/-- `te_get_token_flags`. -/
def teGetTokenFlags (M : LlamaModel) (token : Int32) : Nat :=
  (if M.tokenIsEog token then teFlagEos else 0) ||| (if token = M.tokenBos then teFlagBos else 0) |||
    (if M.tokenIsControl token then teFlagControl else 0) |||
    (if M.tokenIsSpecial token then teFlagSpecial else 0)

/-- The doubling loop of `te_ensure_capacity`, for at most `fuel` rounds. -/
def teGrowCapacity : Nat → Nat → Nat → Nat
  | 0, c, _ => c
  | fuel + 1, c, required => if c < required then teGrowCapacity fuel (c * 2) required else c

/-- The same loop in `size_t` arithmetic, from the first doubled capacity: the capacity it
settles on and the rounds its body ran, or `none` when `fuel` calls run out. -/
def teDoublingLoop : Nat → Nat → Nat → Option (Nat × Nat)
  | 0, _, _ => none
  | fuel + 1, c, required =>
    if c < required then (teDoublingLoop fuel (c * 2 % 2 ^ 64) required).map fun (c, k) => (c, k + 1)
    else some (c, 0)

/-- `te_ensure_capacity`. A failed second `realloc` keeps the grown token block. -/
def teEnsureCapacity (ctx : TeContext) (required : Nat) : TeError × TeContext :=
  if required ≤ ctx.capacity then (.ok, ctx) else
  let newCapacity := teGrowCapacity required (ctx.capacity * 2) required
  let (ok, ctx) := teMalloc ctx
  if !ok then (.errorAllocationFailed, ctx) else
  let ctx := { ctx with tokens := blockResize ctx.tokens newCapacity }
  let (ok, ctx) := teMalloc ctx
  if !ok then (.errorAllocationFailed, ctx) else
  (.ok, { ctx with tokenInfo := blockResize ctx.tokenInfo newCapacity, capacity := newCapacity })

/-- The trimming loop of `te_record_edit`: drop the oldest entry while `count > limit`. -/
def teTrimHistory : List TeEditOp → Option TeEditOp → Nat → Nat → List TeEditOp × Option TeEditOp
  | [], tail, _, _ => ([], tail)
  | old :: rest, tail, count, limit =>
    if count > limit then teTrimHistory rest (if rest = [] then none else tail) (count - 1) limit
    else (old :: rest, tail)

/-- The list update of `te_record_edit`: link `op` after `history_tail` (a missing tail
starts a new list), empty the redo stack, and trim to `history_limit` when it is set. -/
def teLogEdit (ctx : TeContext) (op : TeEditOp) : TeContext :=
  let history := if ctx.historyTail.isSome then ctx.history ++ [op] else [op]
  let (history, historyTail) :=
    if 0 < ctx.historyLimit then teTrimHistory history (some op) history.length ctx.historyLimit
    else (history, some op)
  { ctx with history := history, historyTail := historyTail, redoStack := [] }

/-- `te_record_edit`: nothing is recorded when the entry's allocation fails; a failed
copy of the tokens leaves the entry without them. -/
def teRecordEdit (ctx : TeContext) (type : TeOpType) (source dest : TeRange)
    (tokens : List Int32) : TeContext :=
  if ctx.suppressHistory then ctx else
  let (ok, ctx) := teMalloc ctx
  if !ok then ctx else
  let (okTokens, ctx) := if 0 < tokens.length then teMalloc ctx else (false, ctx)
  teLogEdit ctx
    { type := type, source := source, dest := dest
      tokens := if okTokens then some tokens else none, nTokens := tokens.length }

def teDefaultCapacity : Nat := 4096
def teHistoryDefaultLimit : Nat := 100

/-- `te_init` on a fresh runtime context; `none` when one of its four allocations fails.
The allocator outcomes left over are returned either way. -/
def teInit (llamaCtx : LlamaContext) (heap : List Bool) : Option TeContext × List Bool :=
  let ctx : TeContext :=
    { llamaCtx := llamaCtx, tokens := [], tokenInfo := [], nTokens := 0, capacity := 0
      history := [], historyTail := none, redoStack := [], historyLimit := 0
      activeSequences := [], nSequences := 0, readonly := false, kvCacheDirty := false
      logitsValid := false, suppressHistory := false, mallocFails := heap }
  let (ok, ctx) := teMalloc ctx
  if !ok then (none, ctx.mallocFails) else
  let (okTokens, ctx) := teMalloc ctx
  let (okInfo, ctx) := teMalloc ctx
  if !(okTokens && okInfo) then (none, ctx.mallocFails) else
  let (okSeq, ctx) := teMalloc ctx
  if !okSeq then (none, ctx.mallocFails) else
  (some { ctx with capacity := teDefaultCapacity, historyLimit := teHistoryDefaultLimit
                   tokens := List.replicate teDefaultCapacity 0
                   tokenInfo := List.replicate teDefaultCapacity default
                   activeSequences := List.replicate 16 0, nSequences := 1 }, ctx.mallocFails)

end TokenEditor
