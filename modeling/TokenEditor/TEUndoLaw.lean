import TokenEditor.TEHistorySpec

/-! Undo and redo against the edits they replay. A replacement is logged with the replaced
range as both source and destination and the old tokens as payload, so its undo writes the
old tokens over a range of the old length, and its redo writes them again. -/
namespace TokenEditor

theorem take_replace_restore {α : Type} (B ts : List α) {s e : Nat} (hse : s ≤ e)
    (he : e ≤ B.length) (hk : e - s ≤ ts.length) :
    (B.take s ++ ts ++ B.drop e).take s ++ ((B.drop s).take (e - s)).take (e - s) ++
      (B.take s ++ ts ++ B.drop e).drop e = B.take e ++ ts.drop (e - s) ++ B.drop e := by
  have hs : (B.take s).length = s := by simp only [List.length_take]; omega
  have h1 : (B.take s ++ ts ++ B.drop e).take s = B.take s := by
    rw [List.append_assoc, List.take_left' hs]
  have h3 : (B.take s ++ ts ++ B.drop e).drop e = ts.drop (e - s) ++ B.drop e := by
    rw [List.append_assoc, List.drop_append_eq_append_drop, hs, List.drop_of_length_le (by omega),
      List.nil_append, List.drop_append_eq_append_drop, Nat.sub_eq_zero_of_le hk, List.drop_zero]
  rw [h1, List.take_take, min_self, h3, ← List.take_add, Nat.add_sub_cancel' hse, List.append_assoc]

theorem take_cons_drop {α : Type} {B : List α} {p : Nat} {x : α} (h : B[p]? = some x) :
    B.take p ++ [x] ++ B.drop (p + 1) = B := by
  obtain ⟨hp, rfl⟩ := List.getElem?_eq_some_iff.mp h
  rw [List.append_assoc, List.singleton_append, ← List.drop_eq_getElem_cons hp, List.take_append_drop]

theorem take_set_drop {α : Type} {B : List α} {p : Nat} {x : α} (h : B[p]? = some x) (y : α) :
    (B.set p y).take p ++ [x] ++ (B.set p y).drop (p + 1) = B := by
  rw [List.set_take, List.drop_set, if_pos (Nat.lt_succ_self p), List.set_eq_of_length_le
    (by simp only [List.length_take]; omega), take_cons_drop h]

variable (M : LlamaModel)

/-- Undo right after a replacement of `[s, e)` by at least `e - s` tokens writes the old
tokens back over `[s, e)` only: the buffer becomes `B[0, e) ++ ts[e - s ..] ++ B[e ..]`. -/
theorem teUndo_after_teReplaceTokens {ctx : TeContext} (range : TeRange) (buf : List Int32)
    (k : Nat) (hr : ctx.Ready) (hrec : ctx.suppressHistory = false) (hs : 0 ≤ range.start.toInt)
    (hse : range.start.toInt < range.stop.toInt) (hn : range.stop.toInt ≤ ctx.nTokens)
    (hk : range.stop.toInt.toNat - range.start.toInt.toNat ≤ k) (hb : k ≤ buf.length) :
    ∃ ctx2 ctx3, teReplaceTokens M ctx range (some buf) k = some (.ok, ctx2) ∧
      ctx2.view = ctx.view.take range.start.toInt.toNat ++ buf.take k ++
        ctx.view.drop range.stop.toInt.toNat ∧
      teUndo M ctx2 = some (.ok, ctx3) ∧
      ctx3.view = ctx.view.take range.stop.toInt.toNat ++
        (buf.take k).drop (range.stop.toInt.toNat - range.start.toInt.toNat) ++
        ctx.view.drop range.stop.toInt.toNat := by
  obtain ⟨c, h1, he, hn1, hv1⟩ := teReplaceTokens_spec M range buf k hr hs hse.le hn (by omega) hb
  rw [if_pos hse] at h1
  set saved := (ctx.view.drop range.start.toInt.toNat).take
    (range.stop.toInt.toNat - range.start.toInt.toNat)
  set R := teRecordEdit c .replace range range saved
  have hc := he.ready hr
  have hlv := hr.wf.length_view
  obtain ⟨ht2, hl2⟩ : R.historyTail = some (teEntry .replace range range saved) ∧
      R.history.getLast? = some (teEntry .replace range range saved) :=
    teRecordEdit_last _ _ _ _ (he.suppressHistory_eq.trans hrec) hc.allocOk
  have hsl : saved.length = range.stop.toInt.toNat - range.start.toInt.toNat := by
    simp only [saved, List.length_take, List.length_drop]; omega
  have hr2 := (hc.teRecordEdit .replace range range saved).log R.history.dropLast
    R.history.dropLast.getLast? R.redoStack true R.kvCacheDirty R.logitsValid
  obtain ⟨c3, h3, he3, -, hv3⟩ := teReplaceTokens_spec M range saved _ hr2 hs hse.le
    (by simp only [R, teRecordEdit_nTokens]; omega) (by omega) hsl.ge
  rw [if_pos hse, teRecordEdit_of_suppress _ _ _ _ _ (he3.suppressHistory_eq)] at h3
  refine ⟨R, { c3 with suppressHistory := R.suppressHistory
                       redoStack := teEntry .replace range range saved :: c3.redoStack
                       kvCacheDirty := true, logitsValid := false },
    h1, by rw [teRecordEdit_view, hv1], ?_, ?_⟩
  · rw [teUndo_eq M ht2 hl2]
    simp only [teUndoReplay, teEntry, hsl, if_pos (by omega : 0 < range.stop.toInt.toNat -
      range.start.toInt.toNat), h3, Option.map_some']
  · have hvc := teRecordEdit_view c .replace range range saved
    simp only [TeContext.view] at hv3 hvc hv1 hlv ⊢
    rw [hv3, hvc, hv1]
    exact take_replace_restore _ _ (by omega) (by omega) (by simp only [List.length_take]; omega)

/-- A fresh editor after inserting `[0, 1, 2]`: ready, recording, holding three tokens at the
default capacity, with the insertion as its last entry. -/
theorem teInsertTokens_fresh (lctx : LlamaContext) :
    ∃ ctx0 ctx1, (teInit lctx []).1 = some ctx0 ∧
      teInsertTokens M ctx0 0 0 (some [0, 1, 2]) 3 = some (.ok, ctx1) ∧ ctx1.Ready ∧
      ctx1.suppressHistory = false ∧ ctx1.nTokens = 3 ∧ ctx1.view = [0, 1, 2] ∧
      ctx1.capacity = teDefaultCapacity ∧ ctx1.llamaCtx = lctx ∧
      ∃ op, ctx1.historyTail = some op ∧ ctx1.history.getLast? = some op := by
  obtain ⟨ctx0, h0, ha0⟩ := teInit_allocOk lctx (List.not_mem_nil true)
  have hi := teInit_initial h0
  have hr0 : ctx0.Ready := ⟨hi.wf, hi.writable, ha0⟩
  have hv0 : ctx0.view = [] := by rw [TeContext.view, hi.nTokens_eq, List.take_zero]
  obtain ⟨c1, h1, he1, hn1, hc1, hv1, -⟩ := teInsertTokens_spec M 0 0 [0, 1, 2] 3 hr0 (by decide)
    (by simp [hi.nTokens_eq]) (by decide) (by decide)
  have hs1 : c1.suppressHistory = false := by rw [he1.suppressHistory_eq, hi.recording]
  refine ⟨ctx0, _, h0, h1, (he1.ready hr0).teRecordEdit _ _ _ _,
    by rw [teRecordEdit_suppressHistory, hs1],
    by rw [teRecordEdit_nTokens, hn1, hi.nTokens_eq], by rw [teRecordEdit_view, hv1, hv0]; rfl,
    by rw [teRecordEdit_capacity, hc1, teEnsureCapacity_of_le (by rw [hi.nTokens_eq, hi.capacity_eq]; decide),
      hi.capacity_eq],
    by rw [teRecordEdit_llamaCtx, he1.frame, hi.llamaCtx_eq],
    _, teRecordEdit_last _ _ _ _ hs1 (he1.allocOk ha0)⟩

/-- A fresh editor holding `[0, 1, 2]`: replacing `[0, 1)` by `[7, 8]` and undoing leaves
`[0, 8, 1, 2]`, not the `[0, 1, 2]` the replacement started from. -/
theorem teUndo_replace_on_fresh_editor (lctx : LlamaContext) :
    ∃ ctx0 ctx1 ctx2 ctx3, (teInit lctx []).1 = some ctx0 ∧
      teInsertTokens M ctx0 0 0 (some [0, 1, 2]) 3 = some (.ok, ctx1) ∧ ctx1.view = [0, 1, 2] ∧
      teReplaceTokens M ctx1 ⟨0, 1, 0⟩ (some [7, 8]) 2 = some (.ok, ctx2) ∧
      ctx2.view = [7, 8, 1, 2] ∧
      teUndo M ctx2 = some (.ok, ctx3) ∧ ctx3.view = [0, 8, 1, 2] := by
  obtain ⟨ctx0, ctx1, h0, h1, hr1, hrec1, hn1, hv1, -⟩ := teInsertTokens_fresh M lctx
  obtain ⟨ctx2, ctx3, h2, hv2, h3, hv3⟩ := teUndo_after_teReplaceTokens M ⟨0, 1, 0⟩
    [7, 8] 2 hr1 hrec1 (by decide) (by decide) (by rw [hn1]; decide)
    (by decide) (by decide)
  exact ⟨ctx0, ctx1, ctx2, ctx3, h0, h1, hv1, h2, by rw [hv2, hv1]; rfl, h3, by rw [hv3, hv1]; rfl⟩

/-- `te_set_token` logs a one-token replacement holding the old token, and `te_redo` replays
a replacement with the payload it holds: undo restores the buffer, and redo writes the old
token once more instead of the new one. -/
theorem teRedo_after_teSetToken {ctx : TeContext} (pos seqId token : Int32) (hr : ctx.Ready)
    (hrec : ctx.suppressHistory = false) (hp : 0 ≤ pos.toInt) (hpn : pos.toInt.toNat < ctx.nTokens)
    (hn : ctx.nTokens < 2^31) :
    ∃ ctx1 ctx2 ctx3, teSetToken M ctx pos seqId token = some (.ok, ctx1) ∧
      ctx1.view = ctx.view.set pos.toInt.toNat token ∧
      teUndo M ctx1 = some (.ok, ctx2) ∧ ctx2.view = ctx.view ∧
      teRedo M ctx2 = some (.ok, ctx3) ∧ ctx3.view = ctx.view := by
  obtain ⟨old, c, hold, h1, he, hn1, hv1⟩ := teSetToken_spec M pos seqId token
    hr.wf hr.writable hp hpn
  have hpos : (pos + 1).toInt = pos.toInt + 1 := toInt_add_one (by omega)
  have hsp : (pos + 1).toInt.toNat = pos.toInt.toNat + 1 := by rw [hpos]; omega
  have hc := he.ready hr
  set E := teEntry .replace ⟨pos, pos + 1, seqId⟩ ⟨pos, pos + 1, seqId⟩ [old]
  obtain ⟨ht1, hl1⟩ := teRecordEdit_last .replace ⟨pos, pos + 1, seqId⟩ ⟨pos, pos + 1, seqId⟩ [old]
    (he.suppressHistory_eq.trans hrec) hc.allocOk
  have hrR := hc.teRecordEdit .replace ⟨pos, pos + 1, seqId⟩ ⟨pos, pos + 1, seqId⟩ [old]
  have hnR := teRecordEdit_nTokens c .replace ⟨pos, pos + 1, seqId⟩ ⟨pos, pos + 1, seqId⟩ [old]
  have hvR := teRecordEdit_view c .replace ⟨pos, pos + 1, seqId⟩ ⟨pos, pos + 1, seqId⟩ [old]
  generalize teRecordEdit c .replace ⟨pos, pos + 1, seqId⟩ ⟨pos, pos + 1, seqId⟩ [old] = R at *
  rw [hv1] at hvR
  -- the undo replays `E` over `[pos, pos + 1)` with recording off
  obtain ⟨c2, h2, he2, hn2, hv2⟩ := teReplaceTokens_spec M ⟨pos, pos + 1, seqId⟩ [old] 1
    (hrR.log R.history.dropLast R.history.dropLast.getLast? R.redoStack true
      R.kvCacheDirty R.logitsValid) hp (by dsimp only; omega)
    (by show (pos + 1).toInt ≤ (R.nTokens : Int); rw [hnR, hn1, hpos]; omega) Nat.one_pos le_rfl
  rw [if_pos (by dsimp only; omega), teRecordEdit_of_suppress _ _ _ _ _ he2.suppressHistory_eq] at h2
  have hU : teUndo M R = some (.ok,
      { c2 with suppressHistory := R.suppressHistory, redoStack := E :: c2.redoStack
                kvCacheDirty := true, logitsValid := false }) := by
    rw [teUndo_eq M ht1 hl1]
    simp only [teUndoReplay, E, teEntry, List.length_singleton, Nat.lt_irrefl, if_true,
      Nat.one_pos, h2, Option.map_some']
  have hvU : c2.view = ctx.view := by
    simp only [TeContext.view] at hv2 hvR ⊢
    rw [hv2, hvR, hsp]
    exact take_set_drop hold token
  -- the redo replays `E` over `[pos, pos + 1)` once more
  have hr3 := (he2.ready (hrR.log R.history.dropLast R.history.dropLast.getLast? R.redoStack true
      R.kvCacheDirty R.logitsValid)).log c2.history c2.historyTail c2.redoStack true true false
  obtain ⟨c4, h4, he4, -, hv4⟩ := teReplaceTokens_spec M ⟨pos, pos + 1, seqId⟩ [old] 1
    hr3 hp (by dsimp only; omega)
    (by show (pos + 1).toInt ≤ (c2.nTokens : Int); rw [hn2]; dsimp only; rw [hnR, hn1, hsp]; omega)
    Nat.one_pos le_rfl
  rw [if_pos (by dsimp only; omega), teRecordEdit_of_suppress _ _ _ _ _ he4.suppressHistory_eq] at h4
  set U := { c2 with suppressHistory := R.suppressHistory, redoStack := E :: c2.redoStack
                     kvCacheDirty := true, logitsValid := false }
  refine ⟨R, U,
    { c4 with suppressHistory := U.suppressHistory
              history := if c4.historyTail.isSome then c4.history ++ [E] else [E]
              historyTail := some E, kvCacheDirty := true, logitsValid := false },
    h1, by rw [hvR], hU, hvU, ?_, ?_⟩
  · rw [teRedo_eq M rfl]
    simp only [teRedoReplay, E, teEntry, List.length_singleton, Nat.lt_irrefl, if_true,
      Nat.one_pos, h4, Option.map_some']
  · show c4.view = _
    simp only [TeContext.view] at hv4 hvU ⊢
    rw [hv4, hvU, hsp]
    exact take_cons_drop hold

/-- A fresh editor holding `[0, 1, 2]`: setting token 0 to `9`, undoing and redoing leaves
`[0, 1, 2]`, not the `[9, 1, 2]` the set produced. -/
theorem teRedo_setToken_on_fresh_editor (lctx : LlamaContext) :
    ∃ ctx0 ctx1 ctx2 ctx3 ctx4, (teInit lctx []).1 = some ctx0 ∧
      teInsertTokens M ctx0 0 0 (some [0, 1, 2]) 3 = some (.ok, ctx1) ∧
      teSetToken M ctx1 0 0 9 = some (.ok, ctx2) ∧ ctx2.view = [9, 1, 2] ∧
      teUndo M ctx2 = some (.ok, ctx3) ∧ ctx3.view = [0, 1, 2] ∧
      teRedo M ctx3 = some (.ok, ctx4) ∧ ctx4.view = [0, 1, 2] := by
  obtain ⟨ctx0, ctx1, h0, h1, hr1, hrec1, hn1, hv1, -⟩ := teInsertTokens_fresh M lctx
  obtain ⟨ctx2, ctx3, ctx4, h2, hv2, h3, hv3, h4, hv4⟩ := teRedo_after_teSetToken M 0 0 9 hr1 hrec1 (by decide) (by rw [hn1]; decide) (by rw [hn1]; decide)
  exact ⟨ctx0, ctx1, ctx2, ctx3, ctx4, h0, h1, h2, by rw [hv2, hv1]; rfl, h3, by rw [hv3, hv1],
    h4, by rw [hv4, hv1]⟩

end TokenEditor
