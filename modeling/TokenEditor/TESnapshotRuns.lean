import TokenEditor.TEShape
import TokenEditor.TECoherence

/-! Snapshots over runs of the editor. A snapshot is a copy its client holds: no later call
touches it, the capacity only grows and the client's list of snapshots only grows, so restoring
it after any run brings back the buffer, its metadata and the cache of the moment it was taken.
The edit history is not part of a snapshot, and the restore keeps the one the run left. -/

namespace TokenEditor

variable (M : LlamaModel)

/-- The calls `cs` one after another; `none` from the first that is. -/
def teRun (w : TeWorld) : List TeCall → Option TeWorld
  | [] => some w
  | c :: cs => (teStep M w c).bind (teRun · cs)

@[simp] theorem teRun_nil (w : TeWorld) : teRun M w [] = some w := rfl

theorem teRun_cons_eq_some {w w' : TeWorld} {c : TeCall} {cs : List TeCall} :
    teRun M w (c :: cs) = some w' ↔ ∃ w1, teStep M w c = some w1 ∧ teRun M w1 cs = some w' :=
  Option.bind_eq_some

/-- A run from a reachable editor ends in a reachable one. -/
theorem TeReachable.run {lctx : LlamaContext} {w w' : TeWorld} {cs : List TeCall}
    (hr : TeReachable M lctx w) (h : teRun M w cs = some w') : TeReachable M lctx w' := by
  induction cs generalizing w with
  | nil => cases h; exact hr
  | cons c cs ih =>
    obtain ⟨w1, h1, h⟩ := (teRun_cons_eq_some M).mp h
    exact ih (.step c hr h1) h

theorem TeContext.Reshaped.capacity_le {ctx c : TeContext} (h : ctx.Reshaped c) :
    ctx.capacity ≤ c.capacity := by
  rcases h.capacity with h | ⟨-, h⟩
  · omega
  · rw [h]; exact (by omega : ctx.capacity ≤ ctx.capacity * 2).trans (le_teGrowCapacity ..)

/-- A call never drops a snapshot the client holds; only `createSnapshot` adds one. -/
theorem teStep_snapshots {w w' : TeWorld} {c : TeCall} (h : teStep M w c = some w') :
    w.snapshots <+: w'.snapshots := by
  cases c with
  | createSnapshot =>
    obtain ⟨⟨_, _⟩, -, rfl⟩ := Option.map_eq_some'.mp h; exact List.prefix_append _ _
  | restoreSnapshot =>
    simp only [teStep, Option.bind_eq_bind] at h
    obtain ⟨_, -, h⟩ := Option.bind_eq_some.mp h
    obtain ⟨_, -, rfl⟩ := Option.map_eq_some'.mp h; exact List.prefix_refl _
  | setHistoryLimit | clearHistory | copySequence | invalidateKvRange | clearKvCache
  | shiftKvCache | setReadonly => cases h; exact List.prefix_refl _
  | _ => obtain ⟨_, -, rfl⟩ := Option.map_eq_some'.mp h; exact List.prefix_refl _

/-- What a run keeps: the editor stays well formed, the capacity only grows and the client
keeps every snapshot it held. -/
theorem teRun_keeps {w w' : TeWorld} {cs : List TeCall} (h : teRun M w cs = some w')
    (hw : w.ctx.Wf) :
    w'.ctx.Wf ∧ w.ctx.capacity ≤ w'.ctx.capacity ∧ w.snapshots <+: w'.snapshots := by
  induction cs generalizing w with
  | nil => cases h; exact ⟨hw, le_rfl, List.prefix_refl _⟩
  | cons c cs ih =>
    obtain ⟨w1, h1, h⟩ := (teRun_cons_eq_some M).mp h
    have hr := teStep_reshaped M hw h1
    obtain ⟨hw', hc, hs⟩ := ih h hr.wf
    exact ⟨hw', hr.capacity_le.trans hc, (teStep_snapshots M h1).trans hs⟩

/-- A snapshot taken while allocation succeeds can be restored after any run: the restore
succeeds without allocating, brings back the buffer, its metadata and the cache of the moment
the snapshot was taken, marks the editor clean, and leaves everything else as the run left it,
the edit history and the redo stack included. -/
theorem teRun_restoreSnapshot {w w1 w2 : TeWorld} {cs : List TeCall} (hw : w.ctx.Wf)
    (ha : w.ctx.AllocOk) (h1 : teStep M w .createSnapshot = some w1)
    (h2 : teRun M w1 cs = some w2) :
    ∃ snap t i, w2.snapshots[w.snapshots.length]? = some snap ∧
      teRestoreSnapshot w2.ctx snap = some (.ok,
        { w2.ctx with tokens := t, tokenInfo := i, nTokens := w.ctx.nTokens, kvCacheDirty := false
                      llamaCtx := { w2.ctx.llamaCtx with kvCells := w.ctx.llamaCtx.kvCells }
                      logitsValid := true }) ∧
      t.take w.ctx.nTokens = w.ctx.view ∧
      i.take w.ctx.nTokens = w.ctx.tokenInfo.take w.ctx.nTokens := by
  obtain ⟨m, hc⟩ := teCreateSnapshot_spec hw ha
  simp only [teStep, hc, Option.map_some', Option.some_inj] at h1
  subst h1
  obtain ⟨hw2, hcap, ⟨rest, hrest⟩⟩ := teRun_keeps M h2 ⟨hw.1, hw.2, hw.3, hw.4⟩
  have hi : w.ctx.nTokens ≤ (w.ctx.tokenInfo.take w.ctx.nTokens).length := by
    rw [List.length_take, hw.info_length]; have := hw.nTokens_le; omega
  obtain ⟨t, i, hr, ht, hi'⟩ := teRestoreSnapshot_fits ⟨w.ctx.view, _, w.ctx.nTokens,
    some w.ctx.llamaCtx.kvCells⟩ hw2 (hw.nTokens_le.trans hcap) hw.length_view.ge hi rfl
  refine ⟨_, t, i, ?_, hr, ?_, ?_⟩
  · rw [← hrest, List.append_assoc, List.getElem?_append_right le_rfl, Nat.sub_self]
    simp only [Option.toList_some, List.singleton_append, List.getElem?_cons_zero]
  · rw [ht, TeContext.view, List.take_take, min_self]
  · rw [hi', List.take_take, min_self]

/-- The buffer `[0, 1, 2]` written by `te_insert_tokens`, a snapshot, then `te_set_token` writing
9 at position 1: the snapshot restores `[0, 1, 2]`. -/
theorem teRun_restoreSnapshot_setToken :
    ∃ w w1 w2, w.ctx.Wf ∧ w.ctx.AllocOk ∧ w.ctx.view = [0, 1, 2] ∧
      teStep default w .createSnapshot = some w1 ∧ teRun default w1 [.setToken 1 0 9] = some w2 ∧
      w2.ctx.view = [0, 9, 2] ∧ ∃ snap c, w2.snapshots[0]? = some snap ∧
      teRestoreSnapshot w2.ctx snap = some (.ok, c) ∧ c.view = [0, 1, 2] := by
  obtain ⟨-, ctx1, -, -, hr, -, hn, hv, -⟩ := teInsertTokens_fresh default ⟨[], []⟩
  obtain ⟨m, hc⟩ := teCreateSnapshot_spec hr.wf hr.allocOk
  let w1 : TeWorld := ⟨{ ctx1 with mallocFails := m },
    [⟨ctx1.view, ctx1.tokenInfo.take ctx1.nTokens, ctx1.nTokens, some ctx1.llamaCtx.kvCells⟩]⟩
  have h1 : teStep default ⟨ctx1, []⟩ .createSnapshot = some w1 := by
    simp only [teStep, hc, Option.map_some']; rfl
  have hw1 : w1.ctx.Wf := ⟨hr.wf.1, hr.wf.2, hr.wf.3, hr.wf.4⟩
  obtain ⟨old, c2, -, hs2, -, -, hv2⟩ := teSetToken_spec default 1 0 9 hw1 hr.writable (by decide)
    (show 1 < ctx1.nTokens by rw [hn]; decide)
  have h2 : teRun default w1 [.setToken 1 0 9] =
      some ⟨teRecordEdit c2 .replace ⟨1, 1 + 1, 0⟩ ⟨1, 1 + 1, 0⟩ [old], w1.snapshots⟩ := by
    simp only [teRun, teStep, hs2, Option.map_some', Option.some_bind]
  obtain ⟨snap, t, i, hs, hrs, ht, -⟩ := teRun_restoreSnapshot default hr.wf hr.allocOk h1 h2
  refine ⟨_, _, _, hr.wf, hr.allocOk, hv, h1, h2, ?_, snap, _, hs, hrs, ht.trans hv⟩
  rw [teRecordEdit_view, hv2]
  exact congrArg (List.set · 1 9) hv

end TokenEditor
