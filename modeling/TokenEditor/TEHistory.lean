import TokenEditor.TEEdit

/-! Undo and redo: an entry is replayed through the mutators with recording suppressed,
and moves between `history` and `redo_stack` whatever the replay returned. -/
namespace TokenEditor

variable (M : LlamaModel)

/-- The replay `te_undo` makes of an entry. -/
def teUndoReplay (ctx : TeContext) (op : TeEditOp) : Option TeContext :=
  match op.type with
  | .insert => (teDeleteTokens ctx op.source).map (·.2)
  | .delete => (teInsertTokens M ctx op.source.start op.source.seqId op.tokens op.nTokens).map (·.2)
  | .replace => (teReplaceTokens M ctx op.dest op.tokens op.nTokens).map (·.2)
  | _ => some ctx

/-- The replay `te_redo` makes of an entry. -/
def teRedoReplay (ctx : TeContext) (op : TeEditOp) : Option TeContext :=
  match op.type with
  | .insert => (teInsertTokens M ctx op.source.start op.source.seqId op.tokens op.nTokens).map (·.2)
  | .delete => (teDeleteTokens ctx op.source).map (·.2)
  | .replace => (teReplaceTokens M ctx op.source op.tokens op.nTokens).map (·.2)
  | _ => some ctx

/-- `te_undo`: unlink the last entry, replay its inverse, push it on the redo stack. -/
def teUndo (ctx : TeContext) : Option (TeError × TeContext) :=
  match ctx.historyTail with
  | none => some (.ok, ctx)
  | some _ =>
  match ctx.history.getLast? with
  | none => some (.ok, ctx)
  | some op => do
  let ctx := { ctx with history := ctx.history.dropLast
                        historyTail := ctx.history.dropLast.getLast? }
  let wasSuppress := ctx.suppressHistory
  let ctx ← teUndoReplay M { ctx with suppressHistory := true } op
  some (.ok, { ctx with suppressHistory := wasSuppress, redoStack := op :: ctx.redoStack
                        kvCacheDirty := true, logitsValid := false })

/-- `te_redo`: pop the redo stack, replay the entry, link it back at `history_tail`. -/
def teRedo (ctx : TeContext) : Option (TeError × TeContext) :=
  match ctx.redoStack with
  | [] => some (.ok, ctx)
  | op :: rest => do
  let ctx := { ctx with redoStack := rest }
  let wasSuppress := ctx.suppressHistory
  let ctx ← teRedoReplay M { ctx with suppressHistory := true } op
  some (.ok, { ctx with suppressHistory := wasSuppress
                        history := if ctx.historyTail.isSome then ctx.history ++ [op] else [op]
                        historyTail := some op, kvCacheDirty := true, logitsValid := false })

/-- `te_get_history_count`: the length of the walk from `history`. -/
def teGetHistoryCount (ctx : TeContext) : Nat := ctx.history.length

/-- `te_clear_history`. -/
def teClearHistory (ctx : TeContext) : TeContext :=
  { ctx with history := [], redoStack := [], historyTail := none }

/-- `te_set_history_limit`: only the field; nothing is trimmed until the next record. -/
def teSetHistoryLimit (ctx : TeContext) (limit : Nat) : TeContext :=
  { ctx with historyLimit := limit }

end TokenEditor
