import TokenEditor.TEUndoLaw
import TokenEditor.TEMachine

/-! The attention cache against the buffer. `te_sync_kv_cache` decodes the whole buffer into
sequence 0 and marks the editor clean; `te_restore_snapshot` also marks it clean, with the
cache as it was when the snapshot was taken, whether or not it held the buffer then. -/
namespace TokenEditor

/-- The `(position, token)` pairs sequence `seq` holds in the cache. -/
def kvSeqCells (lctx : LlamaContext) (seq : Int32) : List (Int32 × Int32) :=
  (lctx.kvCells.filter (seq ∈ ·.seqs)).map fun c => (c.pos, c.token)

/-- The pairs of a cache in step with the buffer: token `i` at position `i`. -/
def teCachedView (ctx : TeContext) : List (Int32 × Int32) :=
  ctx.view.mapIdx fun i t => (toPos i, t)

/-- Sequence 0 of the cache holds exactly the buffer, as a set of `(position, token)` pairs. -/
def TeContext.Coherent (ctx : TeContext) : Prop :=
  (∀ x ∈ kvSeqCells ctx.llamaCtx 0, x ∈ teCachedView ctx) ∧
    ∀ x ∈ teCachedView ctx, x ∈ kvSeqCells ctx.llamaCtx 0

instance (ctx : TeContext) : Decidable ctx.Coherent := by
  unfold TeContext.Coherent; infer_instance

theorem TeContext.coherent_of_eq {ctx : TeContext} (h : kvSeqCells ctx.llamaCtx 0 = teCachedView ctx) :
    ctx.Coherent :=
  ⟨fun _ hx => h ▸ hx, fun _ hx => h ▸ hx⟩

/-- The cells `llama_decode` stores for the batch `te_sync_kv_cache` builds hold each token at
its index in sequence 0. -/
theorem kvSeqCells_decode (lctx : LlamaContext) (toks : List Int32) :
    kvSeqCells { lctx with kvCells := ((toks.mapIdx fun i t => (t, toPos i, (0 : Int32))).map
      fun b => ⟨b.2.1, b.1, [b.2.2]⟩) } 0 = toks.mapIdx fun i t => (toPos i, t) := by
  simp [kvSeqCells, List.mapIdx_eq_enum_map, List.filter_map, Function.comp_def,
    Function.uncurry_def]

/-- `te_sync_kv_cache` on a dirty, well-formed editor whose decode succeeds leaves it clean
with sequence 0 holding exactly the buffer. -/
theorem teSyncKvCache_coherent {ctx : TeContext} (hw : ctx.Wf) (hd : ctx.kvCacheDirty = true)
    (hdec : ctx.llamaCtx.decodeFails.headD false = false) :
    ∃ c, teSyncKvCache ctx = some (.ok, c) ∧ c.kvCacheDirty = false ∧ c.nTokens = ctx.nTokens ∧
      c.view = ctx.view ∧ c.Coherent := by
  have hr : blockRead ctx.tokens 0 ctx.nTokens = some ctx.view := by
    rw [blockRead_eq (by have := hw.nTokens_le; have := hw.capacity_le; omega), List.drop_zero]; rfl
  unfold teSyncKvCache
  rw [if_neg (by simp [hd])]
  dsimp only
  split_ifs with hn
  · simp only [hr, Option.bind_eq_bind, Option.some_bind, llamaDecode, kvClear, hdec]
    exact ⟨_, rfl, rfl, rfl, rfl, TeContext.coherent_of_eq (kvSeqCells_decode ctx.llamaCtx ctx.view)⟩
  · refine ⟨_, rfl, rfl, rfl, rfl, TeContext.coherent_of_eq ?_⟩
    have : ctx.nTokens = 0 := by omega
    simp [kvSeqCells, teCachedView, kvClear, TeContext.view, this]

section Snapshot
variable {ctx : TeContext}

theorem blockRead_view (hw : ctx.Wf) : blockRead ctx.tokens 0 ctx.nTokens = some ctx.view := by
  rw [blockRead_eq (by have := hw.nTokens_le; have := hw.capacity_le; omega), List.drop_zero]; rfl

/-- With allocation succeeding, `te_create_snapshot` copies the buffer, its metadata and the
cache as they are. -/
theorem teCreateSnapshot_spec (hw : ctx.Wf) (ha : ctx.AllocOk) :
    ∃ m, teCreateSnapshot ctx = some (some
      { tokens := ctx.view, tokenInfo := ctx.tokenInfo.take ctx.nTokens, nTokens := ctx.nTokens
        kvCacheState := some ctx.llamaCtx.kvCells }, { ctx with mallocFails := m }) := by
  have h1 : true ∉ ctx.mallocFails.tail := fun h => ha (List.mem_of_mem_tail h)
  have h2 : true ∉ ctx.mallocFails.tail.tail := fun h => h1 (List.mem_of_mem_tail h)
  have h3 : true ∉ ctx.mallocFails.tail.tail.tail := fun h => h2 (List.mem_of_mem_tail h)
  have hi : blockRead ctx.tokenInfo 0 ctx.nTokens = some (ctx.tokenInfo.take ctx.nTokens) := by
    rw [blockRead_eq (by have := hw.nTokens_le; have := hw.info_length; omega), List.drop_zero]
  unfold teCreateSnapshot teSnapshotState teMalloc
  by_cases hn : 0 < ctx.nTokens
  · simp only [headD_of_not_mem ha, headD_of_not_mem h1, headD_of_not_mem h2,
      headD_of_not_mem h3, hn, blockRead_view hw, hi, Bool.not_false, Bool.and_self,
      Bool.false_eq_true, if_true, if_false, Option.bind_eq_bind, Option.some_bind]
    exact ⟨_, rfl⟩
  · have h0 : ctx.nTokens = 0 := by omega
    simp only [headD_of_not_mem ha, headD_of_not_mem h1, hn, Bool.not_false, Bool.false_eq_true,
      if_false, TeContext.view, h0, List.take_zero]
    exact ⟨_, rfl⟩

/-- `te_restore_snapshot` of a snapshot that fits and carries a state blob `st`: the buffer and
its metadata are the snapshot's, and the editor is marked clean with the cache `st`. -/
theorem teRestoreSnapshot_fits (snap : TeSnapshot) {st : List KvCell} (hw : ctx.Wf)
    (hcap : snap.nTokens ≤ ctx.capacity) (ht : snap.nTokens ≤ snap.tokens.length)
    (hi : snap.nTokens ≤ snap.tokenInfo.length) (hs : snap.kvCacheState = some st) :
    ∃ t i, teRestoreSnapshot ctx snap = some (.ok,
      { ctx with tokens := t, tokenInfo := i, nTokens := snap.nTokens, kvCacheDirty := false
                 llamaCtx := { ctx.llamaCtx with kvCells := st }, logitsValid := true }) ∧
      t.take snap.nTokens = snap.tokens.take snap.nTokens ∧
      i.take snap.nTokens = snap.tokenInfo.take snap.nTokens := by
  have := hw.capacity_le
  have := hw.info_length
  unfold teRestoreSnapshot
  by_cases hn : 0 < snap.nTokens
  · obtain ⟨t, ht'⟩ := Option.isSome_iff_exists.mp (blockWrite_isSome.mpr
      (by simp only [List.length_take]; omega) : (blockWrite ctx.tokens 0
        (snap.tokens.take snap.nTokens)).isSome)
    obtain ⟨i, hi'⟩ := Option.isSome_iff_exists.mp (blockWrite_isSome.mpr
      (by simp only [List.length_take]; omega) : (blockWrite ctx.tokenInfo 0
        (snap.tokenInfo.take snap.nTokens)).isSome)
    refine ⟨t, i, ?_, ?_, ?_⟩
    · simp only [teEnsureCapacity_of_le hcap, hn, blockRead_eq (by omega : 0 + snap.nTokens ≤
        snap.tokens.length), blockRead_eq (by omega : 0 + snap.nTokens ≤ snap.tokenInfo.length),
        List.drop_zero, ht', hi', hs, ne_eq, not_true_eq_false, if_false, if_true,
        Option.bind_eq_bind, Option.some_bind, Option.pure_def]
    · have := take_blockWrite_zero ht'
      rwa [List.length_take, min_eq_left ht] at this
    · have := take_blockWrite_zero hi'
      rwa [List.length_take, min_eq_left hi] at this
  · have h0 : snap.nTokens = 0 := by omega
    refine ⟨ctx.tokens, ctx.tokenInfo, ?_, by rw [h0]; rfl, by rw [h0]; rfl⟩
    simp only [teEnsureCapacity_of_le hcap, hn, hs, ne_eq, not_true_eq_false, if_false,
      Option.bind_eq_bind, Option.some_bind, Option.pure_def]

theorem teRestoreSnapshot_of_state (snap : TeSnapshot) {st : List KvCell} (hw : ctx.Wf)
    (hcap : snap.nTokens ≤ ctx.capacity) (ht : snap.nTokens ≤ snap.tokens.length)
    (hi : snap.nTokens ≤ snap.tokenInfo.length) (hs : snap.kvCacheState = some st) :
    ∃ t i, teRestoreSnapshot ctx snap = some (.ok,
      { ctx with tokens := t, tokenInfo := i, nTokens := snap.nTokens, kvCacheDirty := false
                 llamaCtx := { ctx.llamaCtx with kvCells := st }, logitsValid := true }) ∧
      t.take snap.nTokens = snap.tokens.take snap.nTokens :=
  let ⟨t, i, h, ht', _⟩ := teRestoreSnapshot_fits snap hw hcap ht hi hs
  ⟨t, i, h, ht'⟩

end Snapshot

variable (M : LlamaModel)

/-- From `te_init` on an empty cache: inserting `[0, 1, 2]` marks the editor dirty, a snapshot
saves the still empty cache, and restoring it marks the editor clean with three tokens and
nothing in the cache. -/
theorem teRestoreSnapshot_clean_on_stale_cache :
    ∃ ctx0 ctx1 snap ctx2 ctx3, (teInit ⟨[], []⟩ []).1 = some ctx0 ∧
      teInsertTokens M ctx0 0 0 (some [0, 1, 2]) 3 = some (.ok, ctx1) ∧
      teCreateSnapshot ctx1 = some (some snap, ctx2) ∧
      teRestoreSnapshot ctx2 snap = some (.ok, ctx3) ∧ TeReachable M ⟨[], []⟩ ⟨ctx3, [snap]⟩ ∧
      ctx3.kvCacheDirty = false ∧ ctx3.view = [0, 1, 2] ∧ kvSeqCells ctx3.llamaCtx 0 = [] ∧
      ¬ ctx3.Coherent := by
  obtain ⟨ctx0, ctx1, h0, h1, hr1, -, hn1, hv1, -, hl1, -⟩ := teInsertTokens_fresh M ⟨[], []⟩
  obtain ⟨m, h2⟩ := teCreateSnapshot_spec hr1.wf hr1.allocOk
  obtain ⟨t, i, h3, ht3⟩ := teRestoreSnapshot_of_state
    ⟨ctx1.view, ctx1.tokenInfo.take ctx1.nTokens, ctx1.nTokens, some ctx1.llamaCtx.kvCells⟩
    (hr1.wf.of_frame (c := { ctx1 with mallocFails := m }) rfl) hr1.wf.nTokens_le
    hr1.wf.length_view.ge
    (by simp only [List.length_take]; have := hr1.wf.info_length; have := hr1.wf.nTokens_le; omega)
    rfl
  have r1 : TeReachable M ⟨[], []⟩ ⟨ctx1, []⟩ :=
    .step (.insertTokens 0 0 (some [0, 1, 2]) 3) (.init h0) (by simp only [teStep, h1, Option.map_some'])
  have r2 := TeReachable.step .createSnapshot r1 (by simp only [teStep, h2, Option.map_some']; rfl)
  have r3 := TeReachable.step (.restoreSnapshot 0) r2
    (by simp only [teStep, List.nil_append, Option.toList_some, List.getElem?_cons_zero,
      Option.bind_eq_bind, Option.some_bind, h3, Option.map_some']; rfl)
  have hv3 : t.take ctx1.nTokens = [0, 1, 2] := by
    rw [ht3]; show (ctx1.tokens.take _).take _ = _; rw [List.take_take, min_self]; exact hv1
  refine ⟨ctx0, ctx1, _, _, _, h0, h1, h2, h3, r3, rfl, hv3, by simp [kvSeqCells, hl1], ?_⟩
  rintro ⟨-, h⟩
  have hm := h (toPos 0, 0) (by rw [teCachedView, TeContext.view]; simp only [hv3]; decide)
  simp [kvSeqCells, hl1] at hm

end TokenEditor
