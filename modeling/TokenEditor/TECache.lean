import TokenEditor.TEEdit

/-! The runtime's attention-cache primitives, and the editor calls that drive them:
sequences, `te_sync_kv_cache` and its siblings, snapshots and the binary format. -/
namespace TokenEditor

/-- The position range `[p0, p1)` of the cache primitives: negative `p0` is `0`,
negative `p1` is `INT32_MAX`. -/
def kvInRange (p0 p1 : Int32) (c : KvCell) : Bool :=
  decide ((if p0.toInt < 0 then 0 else p0.toInt) ≤ c.pos.toInt) &&
    decide (c.pos.toInt < if p1.toInt < 0 then 2^31 - 1 else p1.toInt)

/-- `llama_kv_cache_clear`. -/
def kvClear (lctx : LlamaContext) : LlamaContext := { lctx with kvCells := [] }

/-- `llama_kv_cache_seq_rm`: a negative `seq` removes every sequence; emptied cells are freed. -/
def kvSeqRm (lctx : LlamaContext) (seq p0 p1 : Int32) : LlamaContext :=
  let cleared := lctx.kvCells.map fun c =>
    if kvInRange p0 p1 c then { c with seqs := if seq.toInt < 0 then [] else c.seqs.erase seq } else c
  { lctx with kvCells := cleared.filter (·.seqs ≠ []) }

/-- `llama_kv_cache_seq_cp`: the cells of `src` in range join `dst`. -/
def kvSeqCp (lctx : LlamaContext) (src dst p0 p1 : Int32) : LlamaContext :=
  { lctx with kvCells := lctx.kvCells.map fun c =>
      if src ∈ c.seqs ∧ kvInRange p0 p1 c ∧ dst ∉ c.seqs then { c with seqs := c.seqs ++ [dst] }
      else c }

/-- `llama_kv_cache_seq_add`: the cells of `seq` in range move by `delta`; those pushed
below zero are freed. -/
def kvSeqAdd (lctx : LlamaContext) (seq p0 p1 delta : Int32) : LlamaContext :=
  if delta = 0 then lctx else
  if (if p0.toInt < 0 then 0 else p0.toInt) = (if p1.toInt < 0 then 2^31 - 1 else p1.toInt)
  then lctx else
  let moved := lctx.kvCells.map fun c =>
    if seq ∈ c.seqs ∧ kvInRange p0 p1 c then { c with pos := c.pos + delta } else c
  { lctx with kvCells := moved.filter (0 ≤ ·.pos.toInt) }

/-- `llama_decode` of a batch of `(token, pos, seq)`: on success its cells are stored. -/
def llamaDecode (lctx : LlamaContext) (batch : List (Int32 × Int32 × Int32)) :
    Bool × LlamaContext :=
  if lctx.decodeFails.headD false then (false, { lctx with decodeFails := lctx.decodeFails.tail })
  else (true, { lctx with decodeFails := lctx.decodeFails.tail
                          kvCells := lctx.kvCells ++ batch.map fun b => ⟨b.2.1, b.1, [b.2.2]⟩ })

/-- `te_create_sequence`: one past the largest active id, or `-1` once 16 are active. -/
def teCreateSequence (ctx : TeContext) : Option (Int32 × TeContext) := do
  let active ← blockRead ctx.activeSequences 0 ctx.nSequences
  let newId := active.foldl (fun m s => if m.toInt ≤ s.toInt then s + 1 else m) 0
  if 16 ≤ ctx.nSequences then some (-1, ctx) else do
  let seqs ← blockWrite ctx.activeSequences ctx.nSequences [newId]
  some (newId, { ctx with activeSequences := seqs, nSequences := ctx.nSequences + 1 })

/-- `te_delete_sequence`: unlist the first match and drop its cache cells. -/
def teDeleteSequence (ctx : TeContext) (seqId : Int32) : Option (TeError × TeContext) := do
  let active ← blockRead ctx.activeSequences 0 ctx.nSequences
  match active.indexOf? seqId with
  | none => some (.errorSequenceNotFound, ctx)
  | some i => do
    let seqs ← blockMove ctx.activeSequences i (i + 1) (ctx.nSequences - 1 - i)
    some (.ok, { ctx with activeSequences := seqs, nSequences := ctx.nSequences - 1
                          llamaCtx := kvSeqRm ctx.llamaCtx seqId (-1) (-1) })

/-- `te_copy_sequence`. -/
def teCopySequence (ctx : TeContext) (src dst : Int32) : TeContext :=
  { ctx with llamaCtx := kvSeqCp ctx.llamaCtx src dst (-1) (-1) }

/-- `te_fork_sequence`: a new id holding a copy of `src`, or `-1`. -/
def teForkSequence (ctx : TeContext) (src : Int32) : Option (Int32 × TeContext) := do
  let (dst, ctx) ← teCreateSequence ctx
  if dst.toInt < 0 then some (-1, ctx) else some (dst, teCopySequence ctx src dst)

/-- `te_sync_kv_cache`: clear the cache, decode the whole buffer into sequence 0. -/
def teSyncKvCache (ctx : TeContext) : Option (TeError × TeContext) :=
  if !ctx.kvCacheDirty then some (.ok, ctx) else
  let ctx := { ctx with llamaCtx := kvClear ctx.llamaCtx }
  if 0 < ctx.nTokens then do
    let toks ← blockRead ctx.tokens 0 ctx.nTokens
    let (ok, lctx) := llamaDecode ctx.llamaCtx (toks.mapIdx fun i t => (t, toPos i, 0))
    let ctx := { ctx with llamaCtx := lctx }
    if !ok then some (.errorKvCacheFull, ctx) else
    some (.ok, { ctx with logitsValid := true, kvCacheDirty := false })
  else some (.ok, { ctx with kvCacheDirty := false })

/-- `te_invalidate_kv_range`. -/
def teInvalidateKvRange (ctx : TeContext) (range : TeRange) : TeContext :=
  { ctx with llamaCtx := kvSeqRm ctx.llamaCtx range.seqId range.start range.stop
             kvCacheDirty := true }

/-- `te_clear_kv_cache`: a negative `seqId` clears every sequence. -/
def teClearKvCache (ctx : TeContext) (seqId : Int32) : TeContext :=
  { ctx with llamaCtx := if seqId.toInt < 0 then kvClear ctx.llamaCtx
                         else kvSeqRm ctx.llamaCtx seqId (-1) (-1)
             kvCacheDirty := true, logitsValid := false }

/-- `te_shift_kv_cache`: the flags are left as they are. -/
def teShiftKvCache (ctx : TeContext) (seqId delta : Int32) : TeContext :=
  { ctx with llamaCtx := kvSeqAdd ctx.llamaCtx seqId 0 (-1) delta }

/-- `te_snapshot_t`: `kvCacheState` is `NULL` when its allocation failed. -/
structure TeSnapshot where
  tokens : List Int32
  tokenInfo : List TeTokenInfo
  nTokens : Nat
  kvCacheState : Option (List KvCell)
  deriving DecidableEq, Repr

/-- The state blob of `te_create_snapshot`: `llama_copy_state_data` into a fresh block. -/
def teSnapshotState (ctx : TeContext) (snap : TeSnapshot) : Option TeSnapshot × TeContext :=
  let (ok, ctx) := teMalloc ctx
  (some { snap with kvCacheState := if ok then some ctx.llamaCtx.kvCells else none }, ctx)

/-- `te_create_snapshot`: `none` inside is the `NULL` snapshot. -/
def teCreateSnapshot (ctx : TeContext) : Option (Option TeSnapshot × TeContext) :=
  let (ok, ctx) := teMalloc ctx
  if !ok then some (none, ctx) else
  if 0 < ctx.nTokens then
    let (okTokens, ctx) := teMalloc ctx
    let (okInfo, ctx) := teMalloc ctx
    if !(okTokens && okInfo) then some (none, ctx) else do
    let toks ← blockRead ctx.tokens 0 ctx.nTokens
    let info ← blockRead ctx.tokenInfo 0 ctx.nTokens
    some (teSnapshotState ctx { tokens := toks, tokenInfo := info, nTokens := ctx.nTokens
                                kvCacheState := none })
  else some (teSnapshotState ctx { tokens := [], tokenInfo := [], nTokens := 0, kvCacheState := none })

/-- `te_restore_snapshot`: the buffer is overwritten; with a state blob the editor is
marked clean. -/
def teRestoreSnapshot (ctx : TeContext) (snap : TeSnapshot) : Option (TeError × TeContext) :=
  let (err, ctx) := teEnsureCapacity ctx snap.nTokens
  if err ≠ .ok then some (err, ctx) else do
  let ctx := { ctx with nTokens := snap.nTokens }
  let ctx ← (if 0 < snap.nTokens then do
      let src ← blockRead snap.tokens 0 snap.nTokens
      let srcInfo ← blockRead snap.tokenInfo 0 snap.nTokens
      let toks ← blockWrite ctx.tokens 0 src
      let info ← blockWrite ctx.tokenInfo 0 srcInfo
      pure { ctx with tokens := toks, tokenInfo := info }
    else pure ctx)
  match snap.kvCacheState with
  | some st => some (.ok, { ctx with llamaCtx := { ctx.llamaCtx with kvCells := st }
                                     kvCacheDirty := false, logitsValid := true })
  | none => some (.ok, { ctx with kvCacheDirty := true, logitsValid := false })

/-- The four little-endian bytes of a 32-bit word. -/
def u32Bytes (v : Nat) : List UInt8 := (List.range 4).map fun i => UInt8.ofNat (v / 256 ^ i % 256)

/-- The little-endian word in the first four bytes. -/
def u32OfBytes (b : List UInt8) : Nat := (b.take 4).foldr (fun byte acc => byte.toNat + 256 * acc) 0

/-- `te_export_binary` into a caller buffer: the error, the buffer, and `*buf_size`. -/
def teExportBinary (ctx : TeContext) (buf : List UInt8) : Option (TeError × List UInt8 × Nat) :=
  let needed := 4 + ctx.nTokens * 4
  if buf.length < needed then some (.errorBufferTooSmall, buf, needed) else do
  let toks ← blockRead ctx.tokens 0 ctx.nTokens
  let buf ← blockWrite buf 0 (u32Bytes (ctx.nTokens % 2^32) ++ toks.flatMap (u32Bytes ·.toNat))
  some (.ok, buf, needed)

/-- `snprintf(buf + off, size, ...)` printing the text `s`: at most `size - 1` characters and a
`NUL` are written (nothing when `size` is 0); the length of `s` is returned. -/
def snprintfAt (buf : List Char) (off size : Nat) (s : List Char) : Option (List Char × Nat) :=
  if size = 0 then some (buf, s.length) else
  (blockWrite buf off (s.take (size - 1) ++ [Char.ofNat 0])).map (·, s.length)

/-- The `%d` rendering of a 32-bit token. -/
def teDecimal (t : Int32) : List Char := (toString t.toInt).toList

/-- One print of `te_export_json` at the `int` offset into a buffer of `*buf_size = size`
characters: `buf + offset` (`none` before the buffer), `*buf_size - offset` as a `size_t`, and the
offset moved by the printed length. -/
def teJsonPrint (size : Nat) (acc : List Char × Int32) (s : List Char) :
    Option (List Char × Int32) :=
  if acc.2.toInt < 0 then none else
  (snprintfAt acc.1 acc.2.toInt.toNat (toSizeT (size - acc.2.toInt)) s).map fun (b, k) =>
    (b, acc.2 + BitVec.ofNat 32 k)

/-- Round `i` of the loop of `te_export_json`: a comma after the first token, then the token. -/
def teJsonItem (size : Nat) (tokens : List Int32) (acc : List Char × Int32) (i : Nat) :
    Option (List Char × Int32) := do
  let acc ← if 0 < i then teJsonPrint size acc [','] else pure acc
  let t ← tokens[i]?
  teJsonPrint size acc (teDecimal t)

/-- `te_export_json` into a caller buffer of `*buf_size = buf.length` characters: the error, the
buffer, and `*buf_size`. -/
def teExportJson (ctx : TeContext) (buf : List Char) : Option (TeError × List Char × Nat) :=
  let size := buf.length
  let needed := 32 + ctx.nTokens * 12
  if size < needed then some (.errorBufferTooSmall, buf, needed) else do
  let acc ← teJsonPrint size (buf, 0) "\x7b\"tokens\":[".toList
  let acc ← (List.range ctx.nTokens).foldlM (teJsonItem size ctx.tokens) acc
  let acc ← teJsonPrint size acc "]\x7d".toList
  some (.ok, acc.1, toSizeT acc.2.toInt)

/-- The `count` little-endian words after the header, as `te_import_binary` copies them. -/
def teDecodeTokens (bytes : List UInt8) (count : Nat) : List Int32 :=
  (List.range count).map fun i => BitVec.ofNat 32 (u32OfBytes (bytes.drop (4 * i)))

/-- `te_import_binary`: `te_clear` (its result unused), grow, load, rebuild metadata. -/
def teImportBinary (M : LlamaModel) (ctx : TeContext) (seqId : Int32) (buf : List UInt8) :
    Option (TeError × TeContext) :=
  if buf.length < 4 then some (.errorBufferTooSmall, ctx) else
  let count := u32OfBytes buf
  if buf.length < 4 + count * 4 then some (.errorBufferTooSmall, ctx) else do
  let (_, ctx) ← teClear ctx seqId
  let (err, ctx) := teEnsureCapacity ctx count
  if err ≠ .ok then some (err, ctx) else do
  let bytes ← blockRead buf 4 (count * 4)
  let loaded := teDecodeTokens bytes count
  let toks ← blockWrite ctx.tokens 0 loaded
  let info ← blockWrite ctx.tokenInfo 0 (loaded.mapIdx fun i t =>
    { id := t, pos := toPos i, seqId := if 0 ≤ seqId.toInt then seqId else 0
      flags := teGetTokenFlags M t, hasLogit := false })
  some (.ok, { ctx with tokens := toks, tokenInfo := info, nTokens := count, kvCacheDirty := true
                        logitsValid := false })

end TokenEditor
