import TokenEditor.TEHistory
import TokenEditor.TECache

/-! The editor as a state machine: every call a client can make on an editor it owns,
with the snapshots it holds, and the states reachable from `te_init`. The read-only
calls are left out: they change nothing but the allocator's outcomes, and those are
arbitrary from the start. `te_compute_logits`, `te_get_top_k` and `te_get_token_logit`
change the editor only through `te_sync_kv_cache`. -/
namespace TokenEditor

/-- A call on an editor. `setReadonly` is the client's write of the public flag;
`restoreSnapshot i` restores the `i`-th snapshot the client holds. -/
inductive TeCall
  | setToken (pos seqId token : Int32)
  | insertTokens (pos seqId : Int32) (tokens : Option (List Int32)) (nTokens : Nat)
  | deleteTokens (range : TeRange)
  | replaceTokens (range : TeRange) (tokens : Option (List Int32)) (nTokens : Nat)
  | replaceText (range : TeRange) (text : Option (List UInt8))
  | clear (seqId : Int32)
  | undo
  | redo
  | setHistoryLimit (limit : Nat)
  | clearHistory
  | createSequence
  | deleteSequence (seqId : Int32)
  | copySequence (src dst : Int32)
  | forkSequence (src : Int32)
  | syncKvCache
  | invalidateKvRange (range : TeRange)
  | clearKvCache (seqId : Int32)
  | shiftKvCache (seqId delta : Int32)
  | createSnapshot
  | restoreSnapshot (i : Nat)
  | importBinary (seqId : Int32) (buf : List UInt8)
  | setReadonly (b : Bool)

/-- An editor with the snapshots its client holds. -/
structure TeWorld where
  ctx : TeContext
  snapshots : List TeSnapshot

variable (M : LlamaModel)

/-- One call; `none` when it reads or writes outside a block, or restores a snapshot the
client does not hold. -/
def teStep (w : TeWorld) : TeCall → Option TeWorld
  | .setToken pos seqId token => (teSetToken M w.ctx pos seqId token).map ({ w with ctx := ·.2 })
  | .insertTokens pos seqId tokens n =>
    (teInsertTokens M w.ctx pos seqId tokens n).map ({ w with ctx := ·.2 })
  | .deleteTokens range => (teDeleteTokens w.ctx range).map ({ w with ctx := ·.2 })
  | .replaceTokens range tokens n =>
    (teReplaceTokens M w.ctx range tokens n).map ({ w with ctx := ·.2 })
  | .replaceText range text => (teReplaceText M w.ctx range text).map ({ w with ctx := ·.2 })
  | .clear seqId => (teClear w.ctx seqId).map ({ w with ctx := ·.2 })
  | .undo => (teUndo M w.ctx).map ({ w with ctx := ·.2 })
  | .redo => (teRedo M w.ctx).map ({ w with ctx := ·.2 })
  | .setHistoryLimit limit => some { w with ctx := teSetHistoryLimit w.ctx limit }
  | .clearHistory => some { w with ctx := teClearHistory w.ctx }
  | .createSequence => (teCreateSequence w.ctx).map ({ w with ctx := ·.2 })
  | .deleteSequence seqId => (teDeleteSequence w.ctx seqId).map ({ w with ctx := ·.2 })
  | .copySequence src dst => some { w with ctx := teCopySequence w.ctx src dst }
  | .forkSequence src => (teForkSequence w.ctx src).map ({ w with ctx := ·.2 })
  | .syncKvCache => (teSyncKvCache w.ctx).map ({ w with ctx := ·.2 })
  | .invalidateKvRange range => some { w with ctx := teInvalidateKvRange w.ctx range }
  | .clearKvCache seqId => some { w with ctx := teClearKvCache w.ctx seqId }
  | .shiftKvCache seqId delta => some { w with ctx := teShiftKvCache w.ctx seqId delta }
  | .createSnapshot => (teCreateSnapshot w.ctx).map fun (snap, ctx) =>
    { ctx := ctx, snapshots := w.snapshots ++ snap.toList }
  | .restoreSnapshot i => do
    let snap ← w.snapshots[i]?
    (teRestoreSnapshot w.ctx snap).map ({ w with ctx := ·.2 })
  | .importBinary seqId buf => (teImportBinary M w.ctx seqId buf).map ({ w with ctx := ·.2 })
  | .setReadonly b => some { w with ctx := { w.ctx with readonly := b } }

/-- The editors a client can reach from a successful `te_init` on the runtime context `lctx`. -/
inductive TeReachable (lctx : LlamaContext) : TeWorld → Prop
  | init {heap : List Bool} {ctx : TeContext} (h : (teInit lctx heap).1 = some ctx) :
      TeReachable lctx ⟨ctx, []⟩
  | step {w w' : TeWorld} (c : TeCall) (hw : TeReachable lctx w) (h : teStep M w c = some w') :
      TeReachable lctx w'

/-- An invariant of the initial editors kept by every call holds of every reachable one. -/
theorem TeReachable.induct' {lctx : LlamaContext} (P : TeWorld → Prop)
    (hinit : ∀ heap ctx, (teInit lctx heap).1 = some ctx → P ⟨ctx, []⟩)
    (hstep : ∀ w w' c, P w → teStep M w c = some w' → P w')
    {w : TeWorld} (h : TeReachable M lctx w) : P w := by
  induction h with
  | init h => exact hinit _ _ h
  | step c _ h ih => exact hstep _ _ c ih h

end TokenEditor
