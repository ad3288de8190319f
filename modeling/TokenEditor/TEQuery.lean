import TokenEditor.TEEdit

/-! The read side of the editor: single tokens, ranges, the count and detokenization. -/
namespace TokenEditor

/-- `te_get_token`: `-1` outside `[0, n_tokens)`. -/
def teGetToken (ctx : TeContext) (pos : Int32) : Option Int32 :=
  if pos.toInt < 0 ∨ ctx.nTokens ≤ toSizeT pos.toInt then some (-1) else ctx.tokens[pos.toInt.toNat]?

/-- `te_get_tokens` into a caller buffer of `nOut` slots: the error and the tokens written. -/
def teGetTokens (ctx : TeContext) (range : TeRange) (nOut : Nat) :
    Option (TeError × List Int32) :=
  let (start, stop) := teClampRange ctx range
  if stop.toInt ≤ start.toInt then some (.ok, []) else
  let count := (stop.toInt - start.toInt).toNat
  if nOut < count then some (.errorBufferTooSmall, []) else
  (blockRead ctx.tokens start.toInt.toNat count).map (.ok, ·)

/-- `te_get_token_count`: the sequence is ignored. -/
def teGetTokenCount (ctx : TeContext) : Nat := ctx.nTokens

/-- The inner loop of `te_find_text` at `i`: `tokens[i + j]` against `q[j]` up to the first
mismatch; `none` when a read leaves the block. -/
def teMatchAt (tokens : List Int32) : Nat → List Int32 → Option Bool
  | _, [] => some true
  | i, t :: q => do
    let x ← tokens[i]?
    if x ≠ t then some false else teMatchAt tokens (i + 1) q

/-- The outer loop of `te_find_text` from `i`, for the `k` values of `i` its bound still allows,
while fewer than `max` positions are found. A position is stored as a `te_pos_t`. -/
def teScanFrom (tokens q : List Int32) (max : Nat) : Nat → Nat → List Int32 → Option (List Int32)
  | 0, _, found => some found
  | k + 1, i, found =>
    if found.length < max then do
      let m ← teMatchAt tokens i q
      teScanFrom tokens q max k (i + 1) (if m then found ++ [toPos i] else found)
    else some found

/-- `te_find_text` into a caller buffer of `nPositions` slots: the error, the positions written,
the new `*n_positions`, and the editor after the pattern's allocation. The loop bound
`n_tokens - n_search` is a `size_t`. -/
def teFindText (M : LlamaModel) (ctx : TeContext) (text : Option (List UInt8)) (nPositions : Nat) :
    Option (TeError × List Int32 × Nat × TeContext) :=
  match text with
  | none => some (.errorBufferTooSmall, [], nPositions, ctx)
  | some text =>
  let (ok, ctx) := teMalloc ctx
  if !ok then some (.errorAllocationFailed, [], nPositions, ctx) else
  let (err, q) := teTokenize M text (text.length + 1) false
  if err ≠ .ok ∨ q.length = 0 then some (err, [], nPositions, ctx) else do
  let found ← teScanFrom ctx.tokens q nPositions (toSizeT (ctx.nTokens - q.length : Int) + 1) 0 []
  some (.ok, found, found.length, ctx)

/-- The loop of `te_find_token` from `i`, for the `k` positions left below `n_tokens`, while
fewer than `max` positions are stored. -/
def teFindTokenFrom (tokens : List Int32) (token : Int32) (max : Nat) :
    Nat → Nat → List Int32 → Option (List Int32)
  | 0, _, found => some found
  | k + 1, i, found =>
    if found.length < max then do
      let x ← tokens[i]?
      teFindTokenFrom tokens token max k (i + 1) (if x = token then found ++ [toPos i] else found)
    else some found

/-- `te_find_token` into a caller buffer of `nPositions` slots: the error, the positions written
and the new `*n_positions`. The sequence is ignored. -/
def teFindToken (ctx : TeContext) (token : Int32) (nPositions : Nat) :
    Option (TeError × List Int32 × Nat) := do
  let found ← teFindTokenFrom ctx.tokens token nPositions ctx.nTokens 0 []
  some (.ok, found, found.length)

/-- `te_detokenize` into a caller buffer of `outLen` bytes: pieces are rendered into a
256-byte scratch buffer and appended while they fit. -/
def teDetokenize (M : LlamaModel) (tokens : List Int32) (outLen : Nat) : TeError × List UInt8 :=
  go tokens []
where
  go : List Int32 → List UInt8 → TeError × List UInt8
    | [], out => (.ok, out)
    | t :: ts, out =>
      let piece := M.tokenToPiece t
      if 256 < piece.length then (.errorInvalidToken, out)
      else if outLen < out.length + piece.length then (.errorBufferTooSmall, out)
      else go ts (out ++ piece)

/-- `*out_len` after `te_detokenize`: the bytes written when it returns `TE_OK`, and the
caller's value on every other return. -/
def teDetokenizeOutLen (M : LlamaModel) (tokens : List Int32) (outLen : Nat) : Nat :=
  match teDetokenize M tokens outLen with
  | (.ok, out) => out.length
  | _ => outLen

end TokenEditor
