import TokenEditor.TEContext

/-! The recorded mutators of `token_editor.cpp`. Each returns `none` when it would read
or write outside a block; otherwise its error code and the editor after the call. -/
namespace TokenEditor

variable (M : LlamaModel)

/-- The clamp of `te_get_tokens`, `te_delete_tokens` and `te_replace_tokens`. -/
def teClampRange (ctx : TeContext) (range : TeRange) : Int32 × Int32 :=
  (if range.start.toInt < 0 then 0 else range.start,
   if ctx.nTokens < toSizeT range.stop.toInt then toPos ctx.nTokens else range.stop)

/-- The metadata `te_insert_tokens` and `te_replace_tokens` write for a payload at `pos`. -/
def teNewInfos (pos seqId : Int32) (tokens : List Int32) : List TeTokenInfo :=
  tokens.mapIdx fun i t =>
    { id := t, pos := pos + toPos i, seqId := if 0 ≤ seqId.toInt then seqId else 0
      flags := teGetTokenFlags M t ||| teFlagUserData, hasLogit := false }

/-- `te_set_token`: records a one-token `TE_OP_REPLACE` holding the old token. -/
def teSetToken (ctx : TeContext) (pos seqId token : Int32) : Option (TeError × TeContext) :=
  if ctx.readonly then some (.errorReadonly, ctx) else
  if pos.toInt < 0 ∨ ctx.nTokens ≤ toSizeT pos.toInt then some (.errorInvalidPosition, ctx) else do
  let p := pos.toInt.toNat
  let old ← ctx.tokens[p]?
  let range : TeRange := { start := pos, stop := pos + 1, seqId := seqId }
  let ctx := teRecordEdit ctx .replace range range [old]
  let tokens ← blockWrite ctx.tokens p [token]
  let info ← ctx.tokenInfo[p]?
  let tokenInfo ← blockWrite ctx.tokenInfo p
    [{ info with id := token, flags := teGetTokenFlags M token, hasLogit := false }]
  some (.ok, { ctx with tokens := tokens, tokenInfo := tokenInfo, kvCacheDirty := true
                        logitsValid := false })

/-- `te_insert_tokens` of the `nTokens` first tokens of the caller's buffer (`none` is `NULL`). -/
def teInsertTokens (ctx : TeContext) (pos seqId : Int32) (tokens : Option (List Int32))
    (nTokens : Nat) : Option (TeError × TeContext) :=
  if ctx.readonly then some (.errorReadonly, ctx) else
  if pos.toInt < 0 ∨ ctx.nTokens < toSizeT pos.toInt then some (.errorInvalidPosition, ctx) else
  match tokens with
  | none => some (.ok, ctx)
  | some buf =>
  if nTokens = 0 then some (.ok, ctx) else
  let (err, ctx) := teEnsureCapacity ctx (ctx.nTokens + nTokens)
  if err ≠ .ok then some (err, ctx) else do
  let p := pos.toInt.toNat
  let toks ← (if p < ctx.nTokens then blockMove ctx.tokens (p + nTokens) p (ctx.nTokens - p)
    else pure ctx.tokens)
  let info ← (if p < ctx.nTokens then blockMove ctx.tokenInfo (p + nTokens) p (ctx.nTokens - p)
    else pure ctx.tokenInfo)
  let payload ← blockRead buf 0 nTokens
  let toks ← blockWrite toks p payload
  let info ← blockWrite info p (teNewInfos M pos seqId payload)
  let ctx := { ctx with tokens := toks, tokenInfo := info, nTokens := ctx.nTokens + nTokens
                        kvCacheDirty := true, logitsValid := false }
  let range : TeRange := { start := pos, stop := toPos (p + nTokens), seqId := seqId }
  some (.ok, teRecordEdit ctx .insert range range payload)

/-- `te_delete_tokens`: the removed tokens are recorded when their copy could be allocated. -/
def teDeleteTokens (ctx : TeContext) (range : TeRange) : Option (TeError × TeContext) :=
  if ctx.readonly then some (.errorReadonly, ctx) else
  let (start, stop) := teClampRange ctx range
  if stop.toInt ≤ start.toInt then some (.ok, ctx) else do
  let s := start.toInt.toNat
  let e := stop.toInt.toNat
  let count := (stop.toInt - start.toInt).toNat
  let (ok, ctx) := teMalloc ctx
  let ctx ← (if ok then do
      let saved ← blockRead ctx.tokens s count
      let saveRange : TeRange := { start := start, stop := stop, seqId := range.seqId }
      pure (teRecordEdit ctx .delete saveRange saveRange saved)
    else pure ctx)
  let toks ← (if toSizeT stop.toInt < ctx.nTokens then blockMove ctx.tokens s e (ctx.nTokens - e)
    else pure ctx.tokens)
  let info ← (if toSizeT stop.toInt < ctx.nTokens then blockMove ctx.tokenInfo s e (ctx.nTokens - e)
    else pure ctx.tokenInfo)
  some (.ok, { ctx with tokens := toks, tokenInfo := info, nTokens := ctx.nTokens - count
                        kvCacheDirty := true, logitsValid := false })

/-- `te_replace_tokens`: one shift of the tail from `end` to `start + n`, then the copy; the
old tokens are recorded as a `TE_OP_REPLACE` over the clamped range when there were any. -/
def teReplaceTokens (ctx : TeContext) (range : TeRange) (tokens : Option (List Int32))
    (nTokens : Nat) : Option (TeError × TeContext) :=
  if ctx.readonly then some (.errorReadonly, ctx) else
  let (start, stop) := teClampRange ctx range
  let oldCount := if start.toInt < stop.toInt then (stop.toInt - start.toInt).toNat else 0
  let newCount := nTokens
  let s := start.toInt.toNat
  let e := stop.toInt.toNat
  let (ok, ctx) := if 0 < oldCount then teMalloc ctx else (false, ctx)
  do
  let saved ← (if ok then (blockRead ctx.tokens s oldCount).map some else pure none)
  let newTotal := ctx.nTokens - oldCount + newCount
  let (err, ctx) := teEnsureCapacity ctx newTotal
  if err ≠ .ok then some (err, ctx) else do
  let shift := newCount ≠ oldCount ∧ toSizeT stop.toInt < ctx.nTokens
  let toks ← (if shift then blockMove ctx.tokens (s + newCount) e (ctx.nTokens - e)
    else pure ctx.tokens)
  let info ← (if shift then blockMove ctx.tokenInfo (s + newCount) e (ctx.nTokens - e)
    else pure ctx.tokenInfo)
  let payload ← (match tokens with
    | some buf => if 0 < nTokens then (blockRead buf 0 nTokens).map some else pure none
    | none => pure none)
  let toks ← (match payload with
    | some payload => blockWrite toks s payload
    | none => pure toks)
  let info ← (match payload with
    | some payload => blockWrite info s (teNewInfos M start range.seqId payload)
    | none => pure info)
  let ctx := { ctx with tokens := toks, tokenInfo := info, nTokens := newTotal
                        kvCacheDirty := true, logitsValid := false }
  match saved with
  | some saved =>
    let saveRange : TeRange := { start := start, stop := stop, seqId := range.seqId }
    some (.ok, teRecordEdit ctx .replace saveRange saveRange saved)
  | none => some (.ok, ctx)

/-- `te_tokenize` into a caller buffer of `nOut` slots. -/
def teTokenize (text : List UInt8) (nOut : Nat) (addBos : Bool) : TeError × List Int32 :=
  let toks := M.tokenize text addBos
  if nOut < toks.length then (.errorBufferTooSmall, []) else (.ok, toks)

/-- `te_replace_text`: tokenize into `text_len + 1` slots, then `te_replace_tokens`. -/
def teReplaceText (ctx : TeContext) (range : TeRange) (text : Option (List UInt8)) :
    Option (TeError × TeContext) :=
  match text with
  | none => some (.errorInvalidToken, ctx)
  | some text =>
  let maxTokens := text.length + 1
  let (ok, ctx) := teMalloc ctx
  if !ok then some (.errorAllocationFailed, ctx) else
  let (err, toks) := teTokenize M text maxTokens false
  if err ≠ .ok then some (err, ctx) else
  teReplaceTokens M ctx range (some toks) toks.length

/-- `te_clear`: records the whole buffer as one `TE_OP_DELETE`. -/
def teClear (ctx : TeContext) (seqId : Int32) : Option (TeError × TeContext) :=
  if ctx.readonly then some (.errorReadonly, ctx) else do
  let ctx ← (if 0 < ctx.nTokens then do
      let toks ← blockRead ctx.tokens 0 ctx.nTokens
      let range : TeRange := { start := 0, stop := toPos ctx.nTokens, seqId := seqId }
      pure (teRecordEdit ctx .delete range range toks)
    else pure ctx)
  some (.ok, { ctx with nTokens := 0, kvCacheDirty := true, logitsValid := false })

end TokenEditor
