import TokenEditor.TEUndoLaw
import TokenEditor.TECache

/-! Refused and failed calls. Undo and redo check no flag and move their entry whatever the
replay returned; `te_import_binary` drops the result of its `te_clear` and goes on to load
the buffer, and an allocation failure after that `te_clear` leaves the buffer empty. -/
namespace TokenEditor

variable (M : LlamaModel)

section Readonly

variable {ctx : TeContext} (h : ctx.readonly = true)
include h

theorem teSetToken_of_readonly (pos seqId token : Int32) :
    teSetToken M ctx pos seqId token = some (.errorReadonly, ctx) := by
  unfold teSetToken; exact if_pos h

theorem teInsertTokens_of_readonly (pos seqId : Int32) (tokens : Option (List Int32)) (n : Nat) :
    teInsertTokens M ctx pos seqId tokens n = some (.errorReadonly, ctx) := by
  unfold teInsertTokens; exact if_pos h

theorem teDeleteTokens_of_readonly (range : TeRange) :
    teDeleteTokens ctx range = some (.errorReadonly, ctx) := by
  unfold teDeleteTokens; exact if_pos h

theorem teReplaceTokens_of_readonly (range : TeRange) (tokens : Option (List Int32)) (n : Nat) :
    teReplaceTokens M ctx range tokens n = some (.errorReadonly, ctx) := by
  unfold teReplaceTokens; exact if_pos h

theorem teClear_of_readonly (seqId : Int32) : teClear ctx seqId = some (.errorReadonly, ctx) := by
  unfold teClear; exact if_pos h

/-- On a read-only editor every replay of `te_undo` is refused, so it changes nothing. -/
theorem teUndoReplay_of_readonly (op : TeEditOp) : teUndoReplay M ctx op = some ctx := by
  unfold teUndoReplay
  split <;> simp only [teDeleteTokens_of_readonly h, teInsertTokens_of_readonly M h,
    teReplaceTokens_of_readonly M h, Option.map_some']

theorem teRedoReplay_of_readonly (op : TeEditOp) : teRedoReplay M ctx op = some ctx := by
  unfold teRedoReplay
  split <;> simp only [teDeleteTokens_of_readonly h, teInsertTokens_of_readonly M h,
    teReplaceTokens_of_readonly M h, Option.map_some']

end Readonly

/-- `te_undo` on a read-only editor with a last entry `op` reports success and moves `op` to
the redo stack, leaving the buffer as it was. -/
theorem teUndo_of_readonly {ctx : TeContext} {t op : TeEditOp} (h : ctx.readonly = true)
    (ht : ctx.historyTail = some t) (hl : ctx.history.getLast? = some op) :
    teUndo M ctx = some (.ok,
      { ctx with history := ctx.history.dropLast, historyTail := ctx.history.dropLast.getLast?
                 redoStack := op :: ctx.redoStack, kvCacheDirty := true, logitsValid := false }) := by
  rw [teUndo_eq M ht hl, teUndoReplay_of_readonly M (by exact h) op]
  rfl

/-- `te_redo` on a read-only editor with `op` on top of the redo stack reports success and
links `op` back at the end of the history, leaving the buffer as it was. -/
theorem teRedo_of_readonly {ctx : TeContext} {op : TeEditOp} {rest : List TeEditOp}
    (h : ctx.readonly = true) (hr : ctx.redoStack = op :: rest) :
    teRedo M ctx = some (.ok,
      { ctx with redoStack := rest, historyTail := some op, kvCacheDirty := true, logitsValid := false
                 history := if ctx.historyTail.isSome then ctx.history ++ [op] else [op] }) := by
  rw [teRedo_eq M hr, teRedoReplay_of_readonly M (by exact h) op]
  rfl

/-- The failed first allocation of `te_ensure_capacity` when the request does not fit. -/
theorem teEnsureCapacity_of_headD {ctx : TeContext} {required : Nat}
    (h : ctx.capacity < required) (hm : ctx.mallocFails.headD false = true) :
    teEnsureCapacity ctx required =
      (.errorAllocationFailed, { ctx with mallocFails := ctx.mallocFails.tail }) := by
  unfold teEnsureCapacity
  rw [if_neg (by omega)]
  simp only [teMalloc, hm, Bool.not_true, Bool.not_false, if_true]

theorem length_u32Bytes (v : Nat) : (u32Bytes v).length = 4 := by simp [u32Bytes]

/-- A header written by `te_export_binary` reads back as the count modulo `2^32`. -/
theorem u32OfBytes_u32Bytes_append (v : Nat) (r : List UInt8) :
    u32OfBytes (u32Bytes v ++ r) = v % 2^32 := by
  have hb (n : Nat) : (UInt8.ofNat (n % 256)).toNat = n % 256 :=
    UInt8.toNat_ofNat_of_lt (Nat.mod_lt n (by decide))
  simp only [u32OfBytes, u32Bytes, List.range_succ, List.range_zero, List.nil_append,
    List.map_append, List.map_cons, List.map_nil, List.cons_append, List.take_succ_cons,
    List.take_zero, List.foldr_cons, List.foldr_nil, hb]
  omega

section Import
variable {ctx c : TeContext} {seqId : Int32} {b : List UInt8} {e0 : TeError}

/-- Past its size checks `te_import_binary` ignores the code `te_clear` returned: when growing
to the header's count fails, that failure comes back with the editor `te_clear` left. -/
theorem teImportBinary_of_ensure_error (hlen : 4 + u32OfBytes b * 4 ≤ b.length)
    (hc : teClear ctx seqId = some (e0, c)) (herr : (teEnsureCapacity c (u32OfBytes b)).1 ≠ .ok) :
    teImportBinary M ctx seqId b = some (teEnsureCapacity c (u32OfBytes b)) := by
  unfold teImportBinary
  rw [if_neg (by omega), if_neg (by omega)]
  rcases hE : teEnsureCapacity c (u32OfBytes b) with ⟨err, c1⟩
  rw [hE] at herr
  simp only [hc, hE, Option.bind_eq_bind, Option.some_bind, if_pos herr]

/-- When the header's count fits, `te_import_binary` loads the decoded words over the editor
`te_clear` left, whatever code that call returned. -/
theorem teImportBinary_load (hw : c.Wf) (hlen : 4 + u32OfBytes b * 4 ≤ b.length)
    (hc : teClear ctx seqId = some (e0, c)) (hcap : u32OfBytes b ≤ c.capacity) :
    ∃ t i, teImportBinary M ctx seqId b = some (.ok,
      { c with tokens := t, tokenInfo := i, nTokens := u32OfBytes b, kvCacheDirty := true
               logitsValid := false }) ∧
      t.take (u32OfBytes b) =
        teDecodeTokens ((b.drop 4).take (u32OfBytes b * 4)) (u32OfBytes b) := by
  have hL : (teDecodeTokens ((b.drop 4).take (u32OfBytes b * 4)) (u32OfBytes b)).length =
      u32OfBytes b := by simp only [teDecodeTokens, List.length_map, List.length_range]
  have hr : blockRead b 4 (u32OfBytes b * 4) = some ((b.drop 4).take (u32OfBytes b * 4)) :=
    blockRead_eq (by omega)
  have := hw.capacity_le
  have := hw.info_length
  obtain ⟨t, ht⟩ := Option.isSome_iff_exists.mp (blockWrite_isSome.mpr (by omega) :
    (blockWrite c.tokens 0 (teDecodeTokens ((b.drop 4).take (u32OfBytes b * 4))
      (u32OfBytes b))).isSome)
  obtain ⟨i, hi⟩ := Option.isSome_iff_exists.mp (blockWrite_isSome.mpr
    (by rw [List.length_mapIdx]; omega) :
    (blockWrite c.tokenInfo 0 ((teDecodeTokens ((b.drop 4).take (u32OfBytes b * 4))
      (u32OfBytes b)).mapIdx fun i t =>
        { id := t, pos := toPos i, seqId := if 0 ≤ seqId.toInt then seqId else 0
          flags := teGetTokenFlags M t, hasLogit := false })).isSome)
  refine ⟨t, i, ?_, by rw [← take_blockWrite_zero ht, hL]⟩
  unfold teImportBinary
  rw [if_neg (by omega), if_neg (by omega)]
  simp only [hc, teEnsureCapacity_of_le hcap, hr, ht, hi, Option.bind_eq_bind, Option.some_bind,
    ne_eq, not_true_eq_false, if_false]

/-- `te_clear` on a writable, well-formed editor succeeds and leaves an empty, well-formed
buffer. -/
theorem teClear_empties (seqId : Int32) (hw : ctx.Wf) (hro : ctx.readonly = false) :
    ∃ c, teClear ctx seqId = some (.ok, c) ∧ c.Wf ∧ c.nTokens = 0 := by
  refine ⟨_, teClear_spec seqId hw hro, ?_⟩
  have he := teClear_edited hw
  split
  · exact ⟨he.wf.teRecordEdit _ _ _ _, by rw [teRecordEdit_nTokens]⟩
  · exact ⟨he.wf, rfl⟩

/-- Every failure of `te_import_binary` past its size checks on a writable editor comes after
its `te_clear`: the buffer is left empty. -/
theorem teImportBinary_error_empties {err : TeError} (hw : ctx.Wf) (hro : ctx.readonly = false)
    (hlen : 4 + u32OfBytes b * 4 ≤ b.length)
    (h : teImportBinary M ctx seqId b = some (err, c)) (herr : err ≠ .ok) : c.nTokens = 0 := by
  obtain ⟨c0, hc, hw0, hn0⟩ := teClear_empties seqId hw hro
  by_cases hE : (teEnsureCapacity c0 (u32OfBytes b)).1 = .ok
  · unfold teImportBinary at h
    rw [if_neg (by omega), if_neg (by omega)] at h
    rcases hE' : teEnsureCapacity c0 (u32OfBytes b) with ⟨e, c1⟩
    obtain rfl : e = .ok := by rw [hE'] at hE; exact hE
    simp only [hc, hE', Option.bind_eq_bind, Option.some_bind, ne_eq, not_true_eq_false, if_false,
      Option.bind_eq_some, Option.some.injEq, Prod.mk.injEq] at h
    obtain ⟨-, -, -, -, -, -, rfl, -⟩ := h
    exact absurd rfl herr
  · rw [teImportBinary_of_ensure_error M hlen hc hE, Option.some.injEq] at h
    have hg : c0.Grows (teEnsureCapacity c0 (u32OfBytes b)).2 := teEnsureCapacity_grows hw0
    rw [h] at hg
    exact (congrArg TeContext.nTokens hg.frame).trans hn0

/-- When the two allocations of `te_clear`'s entry succeed and the first one of growing to the
header's count fails, `te_import_binary` reports the failure after emptying the buffer and
logging the whole of it as a deletion. -/
theorem teImportBinary_clear_then_fail (seqId : Int32) {d : TeContext} {m : List Bool}
    (hw : d.Wf) (hro : d.readonly = false) (hs : d.suppressHistory = false) (hn : 0 < d.nTokens)
    (hm : d.mallocFails = false :: false :: true :: m) (hcap : d.capacity < u32OfBytes b)
    (hlen : 4 + u32OfBytes b * 4 ≤ b.length) :
    ∃ c, teImportBinary M d seqId b = some (.errorAllocationFailed, c) ∧ c.nTokens = 0 ∧
      c.history.getLast? = some (teEntry .delete ⟨0, toPos d.nTokens, seqId⟩
        ⟨0, toPos d.nTokens, seqId⟩ d.view) := by
  have hc := teClear_spec seqId hw hro
  rw [if_pos hn, teRecordEdit_of_heads _ _ _ _ (by exact hs) (by rw [hm]; rfl) (by rw [hm]; rfl)]
    at hc
  generalize hx : teLogEdit _ _ = c0 at hc
  have hE : teEnsureCapacity c0 (u32OfBytes b) = (.errorAllocationFailed, _) :=
    teEnsureCapacity_of_headD (by rw [← hx]; exact hcap)
      (by rw [← hx]; show (if 0 < d.view.length then d.mallocFails.tail else d.mallocFails).tail.headD false = true
          rw [if_pos (by rw [hw.length_view]; exact hn), hm]; rfl)
  refine ⟨_, by rw [teImportBinary_of_ensure_error M hlen hc (by rw [hE]; simp), hE], ?_, ?_⟩
  · rw [← hx]; rfl
  · rw [← hx]; exact getLast?_teLogEdit _ _

end Import

/-- A fresh editor holding `[0, 1, 2]` whose allocator fails from its third call on: importing
a header of 5000 tokens clears and logs the buffer, then fails to grow, and reports the failure
with the buffer empty and the clear logged. -/
theorem teImportBinary_fails_after_clear (lctx : LlamaContext) :
    ∃ ctx0 ctx1 c, (teInit lctx []).1 = some ctx0 ∧
      teInsertTokens M ctx0 0 0 (some [0, 1, 2]) 3 = some (.ok, ctx1) ∧ ctx1.view = [0, 1, 2] ∧
      teImportBinary M { ctx1 with mallocFails := [false, false, true] } 0
        (u32Bytes 5000 ++ List.replicate 20000 0) = some (.errorAllocationFailed, c) ∧
      c.view = [] ∧ c.history.getLast? = some (teEntry .delete ⟨0, 3, 0⟩ ⟨0, 3, 0⟩ [0, 1, 2]) := by
  obtain ⟨ctx0, ctx1, h0, h1, hr1, hs1, hn1, hv1, hc1, -⟩ := teInsertTokens_fresh M lctx
  have hb : u32OfBytes (u32Bytes 5000 ++ List.replicate 20000 0) = 5000 :=
    u32OfBytes_u32Bytes_append _ _
  have hvd : TeContext.view { ctx1 with mallocFails := [false, false, true] } = [0, 1, 2] := hv1
  obtain ⟨c, h, hn, hl⟩ := teImportBinary_clear_then_fail M 0 (d := { ctx1 with
      mallocFails := [false, false, true] }) (m := []) (hr1.wf.of_frame rfl) hr1.writable hs1
    (by show 0 < ctx1.nTokens; rw [hn1]; decide) rfl
    (by rw [hb]; show ctx1.capacity < 5000; rw [hc1]; decide)
    (by rw [hb, List.length_append, length_u32Bytes, List.length_replicate])
  refine ⟨ctx0, ctx1, c, h0, h1, hv1, h, by rw [TeContext.view, hn, List.take_zero], ?_⟩
  rw [hl, hvd]
  simp only [hn1]
  rfl

/-- A fresh editor holding `[0, 1, 2]`, then marked read-only: `te_undo` reports success and
moves the insertion to the redo stack, and importing the one token `5` reports success and
replaces the buffer. -/
theorem teUndo_import_on_readonly_editor (lctx : LlamaContext) :
    ∃ ctx0 ctx1 c2 c3, (teInit lctx []).1 = some ctx0 ∧
      teInsertTokens M ctx0 0 0 (some [0, 1, 2]) 3 = some (.ok, ctx1) ∧ ctx1.view = [0, 1, 2] ∧
      teUndo M { ctx1 with readonly := true } = some (.ok, c2) ∧
      teGetHistoryCount c2 + 1 = teGetHistoryCount ctx1 ∧
      c2.redoStack.length = ctx1.redoStack.length + 1 ∧
      teImportBinary M { ctx1 with readonly := true } 0 [1, 0, 0, 0, 5, 0, 0, 0] = some (.ok, c3) ∧
      c3.view = [5] := by
  obtain ⟨ctx0, ctx1, h0, h1, hr1, -, -, hv1, hc1, -, op, ht, hl⟩ := teInsertTokens_fresh M lctx
  have hro : ({ ctx1 with readonly := true } : TeContext).readonly = true := rfl
  have hne : ctx1.history ≠ [] := by rintro h; rw [h] at hl; cases hl
  obtain ⟨t, i, h3, hv3⟩ := teImportBinary_load M (c := { ctx1 with readonly := true })
    (b := [1, 0, 0, 0, 5, 0, 0, 0])
    ⟨hr1.wf.1, hr1.wf.2, hr1.wf.3, hr1.wf.4⟩ (by decide) (teClear_of_readonly hro 0)
    (by show _ ≤ ctx1.capacity; rw [hc1]; decide)
  refine ⟨ctx0, ctx1, _, _, h0, h1, hv1, teUndo_of_readonly M hro ht hl, ?_, rfl, h3, ?_⟩
  · simp only [teGetHistoryCount, List.length_dropLast]
    have := List.length_pos.mpr hne
    omega
  · show t.take _ = _
    rw [hv3]
    decide

end TokenEditor
