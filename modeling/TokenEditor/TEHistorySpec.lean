import TokenEditor.TEEditSpec

/-! The editor `te_init` returns, the entry `te_record_edit` leaves at the end of the
history, and `te_undo`/`te_redo` as the replay of the entry they move. -/
namespace TokenEditor

/-- What `te_init` leaves: an empty, writable, well-formed editor on `lctx` with an empty
log, recording on and the default limit. -/
structure TeContext.Initial (lctx : LlamaContext) (ctx : TeContext) : Prop where
  wf : ctx.Wf
  writable : ctx.readonly = false
  nTokens_eq : ctx.nTokens = 0
  history_eq : ctx.history = []
  historyTail_eq : ctx.historyTail = none
  redoStack_eq : ctx.redoStack = []
  historyLimit_eq : ctx.historyLimit = teHistoryDefaultLimit
  recording : ctx.suppressHistory = false
  clean : ctx.kvCacheDirty = false
  llamaCtx_eq : ctx.llamaCtx = lctx
  capacity_eq : ctx.capacity = teDefaultCapacity
  tokens_length : ctx.tokens.length = teDefaultCapacity

theorem teInit_initial {lctx : LlamaContext} {heap : List Bool} {ctx : TeContext}
    (h : (teInit lctx heap).1 = some ctx) : ctx.Initial lctx := by
  simp only [teInit, teMalloc] at h
  split_ifs at h
  cases h
  exact ⟨⟨by simp [teDefaultCapacity], by simp, by simp, by simp [teDefaultCapacity]⟩,
    rfl, rfl, rfl, rfl, rfl, rfl, rfl, rfl, rfl, rfl, by simp⟩

theorem teInit_allocOk (lctx : LlamaContext) {heap : List Bool} (h : true ∉ heap) :
    ∃ ctx, (teInit lctx heap).1 = some ctx ∧ ctx.AllocOk := by
  have h1 : true ∉ heap.tail := fun hm => h (List.mem_of_mem_tail hm)
  have h2 : true ∉ heap.tail.tail := fun hm => h1 (List.mem_of_mem_tail hm)
  have h3 : true ∉ heap.tail.tail.tail := fun hm => h2 (List.mem_of_mem_tail hm)
  simp only [teInit, teMalloc, headD_of_not_mem h, headD_of_not_mem h1, headD_of_not_mem h2,
    headD_of_not_mem h3, Bool.not_false, Bool.and_self, Bool.not_true, Bool.false_eq_true, if_false]
  exact ⟨_, rfl, fun hm => h3 (List.mem_of_mem_tail hm)⟩

theorem getLast?_teKeepRecent {α : Type} (limit : Nat) (l : List α) (x : α) :
    (teKeepRecent limit (l ++ [x])).getLast? = some x := by
  unfold teKeepRecent
  split
  · rw [List.drop_append_of_le_length (by simp only [List.length_append, List.length_singleton]; omega),
      List.getLast?_append, List.getLast?_singleton]
    rfl
  · simp

theorem getLast?_teLogEdit (ctx : TeContext) (op : TeEditOp) :
    (teLogEdit ctx op).history.getLast? = some op := by
  rw [teLogEdit_history]
  split
  · exact getLast?_teKeepRecent _ _ _
  · exact getLast?_teKeepRecent _ [] _

/-- A recorded entry ends the history and is its tail. -/
theorem teRecordEdit_last (type : TeOpType) (source dest : TeRange) (tokens : List Int32)
    {ctx : TeContext} (hs : ctx.suppressHistory = false) (ha : ctx.AllocOk) :
    (teRecordEdit ctx type source dest tokens).historyTail = some (teEntry type source dest tokens) ∧
    (teRecordEdit ctx type source dest tokens).history.getLast? =
      some (teEntry type source dest tokens) := by
  obtain ⟨m, h⟩ := teRecordEdit_of_allocOk type source dest tokens hs ha
  rw [h]
  exact ⟨teLogEdit_historyTail _ _, getLast?_teLogEdit _ _⟩

variable (M : LlamaModel)

/-- `te_undo` with a last entry `op`: the replay of its inverse with recording off, then
`op` on the redo stack. -/
theorem teUndo_eq {ctx : TeContext} {t op : TeEditOp} (ht : ctx.historyTail = some t)
    (hl : ctx.history.getLast? = some op) :
    teUndo M ctx = (teUndoReplay M
      { ctx with history := ctx.history.dropLast, historyTail := ctx.history.dropLast.getLast?
                 suppressHistory := true } op).map fun c =>
      (.ok, { c with suppressHistory := ctx.suppressHistory, redoStack := op :: c.redoStack
                     kvCacheDirty := true, logitsValid := false }) := by
  simp only [teUndo, ht, hl, Option.bind_eq_bind, Option.map_eq_bind]
  rfl

/-- `te_redo` with `op` on top of the redo stack: its replay with recording off, then `op`
linked at the tail. -/
theorem teRedo_eq {ctx : TeContext} {op : TeEditOp} {rest : List TeEditOp}
    (h : ctx.redoStack = op :: rest) :
    teRedo M ctx = (teRedoReplay M { ctx with redoStack := rest, suppressHistory := true } op).map
      fun c => (.ok,
        { c with suppressHistory := ctx.suppressHistory
                 history := if c.historyTail.isSome then c.history ++ [op] else [op]
                 historyTail := some op, kvCacheDirty := true, logitsValid := false }) := by
  simp only [teRedo, h, Option.bind_eq_bind, Option.map_eq_bind]
  rfl

end TokenEditor
