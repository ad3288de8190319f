import TokenEditor.TECoherence
import TokenEditor.TEShape
import TokenEditor.TESnapshotRuns

/-! The dirty flag over whole runs. Every call that changes the buffer ends by setting
`kv_cache_dirty`, or returns with the buffer, the cache and the flag as they were, and only
`te_sync_kv_cache` clears the flag, after decoding the whole buffer into sequence 0. So from
`te_init` on a runtime context whose sequence 0 is empty, a clean editor's sequence 0 holds
exactly its buffer after every run that avoids the calls that write the cache behind the flag:
`te_restore_snapshot` (which loads a saved cache and clears the flag), `te_shift_kv_cache`,
`te_fork_sequence` (whose new id can be 0 once the ids have wrapped), and `te_delete_sequence` or
`te_copy_sequence` aimed at a sequence that is not positive. -/
namespace TokenEditor

/-- The flag is sound: a clean editor's sequence 0 holds exactly its buffer. -/
def TeContext.CacheSound (ctx : TeContext) : Prop := ctx.kvCacheDirty = false → ctx.Coherent

/-- `c` holds the buffer, sequence 0 of the cache and the flag of `ctx`. -/
structure TeContext.CacheFrame (ctx c : TeContext) : Prop where
  view : c.view = ctx.view
  cells : kvSeqCells c.llamaCtx 0 = kvSeqCells ctx.llamaCtx 0
  dirty : c.kvCacheDirty = ctx.kvCacheDirty

/-- What a call that edits the buffer does to the cache: it marks the editor dirty, or leaves
the buffer, sequence 0 and the flag alone. -/
def TeContext.CacheEdit (ctx c : TeContext) : Prop := c.kvCacheDirty = true ∨ ctx.CacheFrame c

section Frame
variable {ctx c c' : TeContext}

theorem TeContext.CacheFrame.refl (ctx : TeContext) : ctx.CacheFrame ctx := ⟨rfl, rfl, rfl⟩

theorem TeContext.CacheFrame.trans (h : ctx.CacheFrame c) (h' : c.CacheFrame c') :
    ctx.CacheFrame c' :=
  ⟨h'.view.trans h.view, h'.cells.trans h.cells, h'.dirty.trans h.dirty⟩

theorem TeContext.CacheFrame.sound (h : ctx.CacheFrame c) (hs : ctx.CacheSound) : c.CacheSound :=
  fun hd => by
    have hc := hs (h.dirty ▸ hd)
    unfold TeContext.Coherent teCachedView at *
    rw [h.cells, h.view]
    exact hc

theorem TeContext.CacheEdit.sound (h : ctx.CacheEdit c) (hs : ctx.CacheSound) : c.CacheSound := by
  rcases h with hd | hf
  · intro h'; rw [hd] at h'; cases h'
  · exact hf.sound hs

theorem TeContext.CacheEdit.trans (h' : c.CacheEdit c') (h : ctx.CacheFrame c) : ctx.CacheEdit c' :=
  h'.imp_right h.trans

theorem TeContext.CacheEdit.of_dirty (h : c.kvCacheDirty = true) : ctx.CacheEdit c := .inl h

theorem teMalloc_cacheFrame (ctx : TeContext) : ctx.CacheFrame (teMalloc ctx).2 := ⟨rfl, rfl, rfl⟩

theorem TeContext.Grows.cacheFrame (hw : ctx.Wf) (h : ctx.Grows c) : ctx.CacheFrame c :=
  ⟨h.view_eq hw, by rw [h.frame], by rw [h.frame]⟩

theorem teEnsureCapacity_cacheFrame (hw : ctx.Wf) (r : Nat) :
    ctx.CacheFrame (teEnsureCapacity ctx r).2 :=
  (teEnsureCapacity_grows hw).cacheFrame hw

end Frame

/-! Each call that edits the buffer: its early returns give the editor back, or the editor
after an allocation or a failed `te_ensure_capacity`; every other return sets the flag. -/
section Mutators
variable (M : LlamaModel) {ctx c : TeContext} {e : TeError} (hw : ctx.Wf)
include hw

omit hw in
theorem teSetToken_cacheEdit {pos seqId token : Int32}
    (h : teSetToken M ctx pos seqId token = some (e, c)) : ctx.CacheEdit c := by
  unfold teSetToken at h
  split_ifs at h
  · cases h; exact .inr (.refl _)
  · cases h; exact .inr (.refl _)
  simp only [Option.bind_eq_bind] at h
  obtain ⟨_, -, h⟩ := Option.bind_eq_some.mp h
  obtain ⟨_, -, h⟩ := Option.bind_eq_some.mp h
  obtain ⟨_, -, h⟩ := Option.bind_eq_some.mp h
  obtain ⟨_, -, h⟩ := Option.bind_eq_some.mp h
  cases h
  exact .of_dirty rfl

theorem teInsertTokens_cacheEdit {pos seqId : Int32} {tokens : Option (List Int32)} {n : Nat}
    (h : teInsertTokens M ctx pos seqId tokens n = some (e, c)) : ctx.CacheEdit c := by
  unfold teInsertTokens at h
  split at h; · cases h; exact .inr (.refl _)
  split at h; · cases h; exact .inr (.refl _)
  split at h; · cases h; exact .inr (.refl _)
  split at h; · cases h; exact .inr (.refl _)
  dsimp only at h
  split at h; · cases h; exact .inr (teEnsureCapacity_cacheFrame hw _)
  obtain ⟨_, -, h⟩ := Option.bind_eq_some.mp h
  obtain ⟨_, -, h⟩ := Option.bind_eq_some.mp h
  obtain ⟨_, -, h⟩ := Option.bind_eq_some.mp h
  obtain ⟨_, -, h⟩ := Option.bind_eq_some.mp h
  obtain ⟨_, -, h⟩ := Option.bind_eq_some.mp h
  cases h
  exact .of_dirty (by rw [teRecordEdit_kvCacheDirty])

omit hw in
theorem teDeleteTokens_cacheEdit {range : TeRange} (h : teDeleteTokens ctx range = some (e, c)) :
    ctx.CacheEdit c := by
  unfold teDeleteTokens at h
  split at h; · cases h; exact .inr (.refl _)
  split at h
  split at h; · cases h; exact .inr (.refl _)
  split at h
  simp only [Option.bind_eq_bind] at h
  obtain ⟨_, -, h⟩ := Option.bind_eq_some.mp h
  obtain ⟨_, -, h⟩ := Option.bind_eq_some.mp h
  obtain ⟨_, -, h⟩ := Option.bind_eq_some.mp h
  cases h
  exact .of_dirty rfl

theorem teReplaceTokens_cacheEdit {range : TeRange} {tokens : Option (List Int32)} {n : Nat}
    (h : teReplaceTokens M ctx range tokens n = some (e, c)) : ctx.CacheEdit c := by
  unfold teReplaceTokens at h
  split at h; · cases h; exact .inr (.refl _)
  split at h
  next start stop _ =>
  dsimp only at h
  generalize hm : (if 0 < (if start.toInt < stop.toInt then (stop.toInt - start.toInt).toNat else 0)
    then teMalloc ctx else (false, ctx)) = m at h
  obtain ⟨hm1, hmw⟩ : ctx.CacheFrame m.2 ∧ m.2.Wf := by
    rw [← hm]
    split_ifs
    all_goals first
      | exact ⟨teMalloc_cacheFrame ctx, hw.of_shape rfl⟩
      | exact ⟨.refl ctx, hw⟩
  obtain ⟨_, -, h⟩ := Option.bind_eq_some.mp h
  generalize hE : teEnsureCapacity m.2 (m.2.nTokens -
    (if start.toInt < stop.toInt then (stop.toInt - start.toInt).toNat else 0) + n) = E at h
  have hE1 : ctx.CacheFrame E.2 := hE ▸ hm1.trans (teEnsureCapacity_cacheFrame hmw _)
  split at h; · cases h; exact .inr hE1
  obtain ⟨_, -, h⟩ := Option.bind_eq_some.mp h
  obtain ⟨_, -, h⟩ := Option.bind_eq_some.mp h
  obtain ⟨_, -, h⟩ := Option.bind_eq_some.mp h
  obtain ⟨_, -, h⟩ := Option.bind_eq_some.mp h
  obtain ⟨_, -, h⟩ := Option.bind_eq_some.mp h
  split at h <;> (cases h; exact .of_dirty (by simp only [teRecordEdit_kvCacheDirty]))

theorem teReplaceText_cacheEdit {range : TeRange} {text : Option (List UInt8)}
    (h : teReplaceText M ctx range text = some (e, c)) : ctx.CacheEdit c := by
  unfold teReplaceText at h
  split at h; · cases h; exact .inr (.refl _)
  dsimp only at h
  split at h; · cases h; exact .inr (teMalloc_cacheFrame ctx)
  split at h; · cases h; exact .inr (teMalloc_cacheFrame ctx)
  exact (teReplaceTokens_cacheEdit M (hw.of_shape (teMalloc_shape ctx)) h).trans
    (teMalloc_cacheFrame ctx)

omit hw in
theorem teClear_cacheEdit {seqId : Int32} (h : teClear ctx seqId = some (e, c)) :
    ctx.CacheEdit c := by
  unfold teClear at h
  split at h; · cases h; exact .inr (.refl _)
  simp only [Option.bind_eq_bind] at h
  obtain ⟨_, -, h⟩ := Option.bind_eq_some.mp h
  cases h
  exact .of_dirty rfl

/-- `te_import_binary` ignores the code `te_clear` returns, so its early return after the clear
holds either a dirty editor or, on a read-only one, the editor as it was. -/
theorem teImportBinary_cacheEdit {seqId : Int32} {buf : List UInt8}
    (h : teImportBinary M ctx seqId buf = some (e, c)) : ctx.CacheEdit c := by
  unfold teImportBinary at h
  split at h; · cases h; exact .inr (.refl _)
  dsimp only at h
  split at h; · cases h; exact .inr (.refl _)
  simp only [Option.bind_eq_bind] at h
  obtain ⟨⟨_, c1⟩, hc, h⟩ := Option.bind_eq_some.mp h
  have hc1 := teClear_cacheEdit hc
  have hw1 : c1.Wf := (teClear_reshaped hw hc).wf
  dsimp only at h
  split at h
  · cases h
    rcases hc1 with hd | hf
    · exact .of_dirty (by rw [(teEnsureCapacity_cacheFrame hw1 _).dirty, hd])
    · exact .inr (hf.trans (teEnsureCapacity_cacheFrame hw1 _))
  obtain ⟨_, -, h⟩ := Option.bind_eq_some.mp h
  obtain ⟨_, -, h⟩ := Option.bind_eq_some.mp h
  obtain ⟨_, -, h⟩ := Option.bind_eq_some.mp h
  cases h
  exact .of_dirty rfl

omit hw in
theorem teUndo_cacheEdit (h : teUndo M ctx = some (e, c)) : ctx.CacheEdit c := by
  unfold teUndo at h
  split at h; · cases h; exact .inr (.refl _)
  split at h; · cases h; exact .inr (.refl _)
  simp only [Option.bind_eq_bind] at h
  obtain ⟨_, -, h⟩ := Option.bind_eq_some.mp h
  cases h
  exact .of_dirty rfl

omit hw in
theorem teRedo_cacheEdit (h : teRedo M ctx = some (e, c)) : ctx.CacheEdit c := by
  unfold teRedo at h
  split at h; · cases h; exact .inr (.refl _)
  simp only [Option.bind_eq_bind] at h
  obtain ⟨_, -, h⟩ := Option.bind_eq_some.mp h
  cases h
  exact .of_dirty rfl

end Mutators

/-! The calls on sequences leave sequence 0 alone when they aim at another sequence. -/
section Sequences
variable {ctx c : TeContext}

/-- A map of the cells that keeps each cell's position, token and membership of sequence 0
keeps the cells of sequence 0. -/
theorem kvSeqCells_map (lctx : LlamaContext) (f : KvCell → KvCell)
    (hf : ∀ x, (f x).pos = x.pos ∧ (f x).token = x.token ∧ ((0 : Int32) ∈ (f x).seqs ↔ 0 ∈ x.seqs)) :
    kvSeqCells { lctx with kvCells := lctx.kvCells.map f } 0 = kvSeqCells lctx 0 := by
  simp only [kvSeqCells]
  induction lctx.kvCells with
  | nil => rfl
  | cons x xs ih =>
    obtain ⟨hp, ht, hm⟩ := hf x
    by_cases h0 : (0 : Int32) ∈ x.seqs
    · simp [-BitVec.ofNat_eq_ofNat, List.filter_cons, h0, hm.mpr h0, hp, ht, ih]
    · simp [-BitVec.ofNat_eq_ofNat, List.filter_cons, h0, mt hm.mp h0, ih]

/-- Removing a positive sequence keeps the cells of sequence 0: they still hold 0 after the
erase, so none of them is freed. -/
theorem kvSeqCells_kvSeqRm (lctx : LlamaContext) {seq : Int32} (p0 p1 : Int32)
    (h : 0 < seq.toInt) : kvSeqCells (kvSeqRm lctx seq p0 p1) 0 = kvSeqCells lctx 0 := by
  have hs : (0 : Int32) ≠ seq := by rintro rfl; exact absurd h (by decide)
  simp only [kvSeqRm, if_neg (show ¬ seq.toInt < 0 by omega)]
  rw [← kvSeqCells_map lctx (fun c => if kvInRange p0 p1 c then { c with seqs := c.seqs.erase seq }
    else c) fun x => by by_cases hr : kvInRange p0 p1 x <;>
      simp [-BitVec.ofNat_eq_ofNat, hr, List.mem_erase_of_ne hs]]
  simp only [kvSeqCells, List.filter_filter]
  congr 1
  refine List.filter_congr fun x _ => ?_
  by_cases h0 : (0 : Int32) ∈ x.seqs
  · simp [-BitVec.ofNat_eq_ofNat, h0, List.ne_nil_of_mem h0]
  · simp [-BitVec.ofNat_eq_ofNat, h0]

/-- Copying into a sequence other than 0 keeps the cells of sequence 0. -/
theorem kvSeqCells_kvSeqCp (lctx : LlamaContext) (src : Int32) {dst : Int32} (p0 p1 : Int32)
    (h : dst ≠ 0) : kvSeqCells (kvSeqCp lctx src dst p0 p1) 0 = kvSeqCells lctx 0 :=
  kvSeqCells_map lctx _ fun x => by split <;> simp [-BitVec.ofNat_eq_ofNat, Ne.symm h]

theorem teCopySequence_cacheFrame {src dst : Int32} (h : dst ≠ 0) :
    ctx.CacheFrame (teCopySequence ctx src dst) :=
  ⟨rfl, kvSeqCells_kvSeqCp _ _ _ _ h, rfl⟩

theorem teCreateSequence_cacheFrame {id : Int32} (h : teCreateSequence ctx = some (id, c)) :
    ctx.CacheFrame c := by
  simp only [teCreateSequence, Option.bind_eq_bind] at h
  obtain ⟨_, -, h⟩ := Option.bind_eq_some.mp h
  split at h
  · cases h; exact .refl _
  · obtain ⟨_, -, h⟩ := Option.bind_eq_some.mp h
    cases h; exact ⟨rfl, rfl, rfl⟩

theorem teDeleteSequence_cacheFrame {seqId : Int32} {e : TeError} (hs : 0 < seqId.toInt)
    (h : teDeleteSequence ctx seqId = some (e, c)) : ctx.CacheFrame c := by
  simp only [teDeleteSequence, Option.bind_eq_bind] at h
  obtain ⟨_, -, h⟩ := Option.bind_eq_some.mp h
  split at h
  · cases h; exact .refl _
  · obtain ⟨_, -, h⟩ := Option.bind_eq_some.mp h
    cases h; exact ⟨rfl, kvSeqCells_kvSeqRm _ _ _ hs, rfl⟩

theorem teCreateSnapshot_cacheFrame {snap : Option TeSnapshot}
    (h : teCreateSnapshot ctx = some (snap, c)) : ctx.CacheFrame c := by
  unfold teCreateSnapshot at h
  dsimp only at h
  split at h; · cases h; exact teMalloc_cacheFrame _
  split at h
  · split at h; · cases h; exact ⟨rfl, rfl, rfl⟩
    obtain ⟨_, -, h⟩ := Option.bind_eq_some.mp h
    obtain ⟨_, -, h⟩ := Option.bind_eq_some.mp h
    obtain rfl : _ = c := congrArg Prod.snd (Option.some.inj h)
    exact ⟨rfl, rfl, rfl⟩
  · obtain rfl : _ = c := congrArg Prod.snd (Option.some.inj h)
    exact ⟨rfl, rfl, rfl⟩

/-- `te_sync_kv_cache` keeps the flag sound: a clean editor is left as it is, a failed decode
leaves it dirty, and a successful one leaves sequence 0 holding exactly the buffer. -/
theorem teSyncKvCache_sound {e : TeError} (hw : ctx.Wf) (hs : ctx.CacheSound)
    (h : teSyncKvCache ctx = some (e, c)) : c.CacheSound := by
  unfold teSyncKvCache at h
  split at h; · cases h; exact hs
  next hd =>
  have hd' : ctx.kvCacheDirty = true := by simpa using hd
  dsimp only at h
  split at h
  · simp only [blockRead_view hw, Option.bind_eq_bind, Option.some_bind, llamaDecode] at h
    split at h
    · cases h; intro h'; rw [hd'] at h'; cases h'
    · cases h
      exact fun _ => TeContext.coherent_of_eq (kvSeqCells_decode ctx.llamaCtx ctx.view)
  · cases h
    intro _
    have : ctx.nTokens = 0 := by omega
    refine TeContext.coherent_of_eq ?_
    simp [kvSeqCells, teCachedView, kvClear, TeContext.view, this]

end Sequences

/-! Whole runs: one call keeps the flag sound, so every run of such calls does. -/
section Runs
variable (M : LlamaModel)

/-- The calls that leave sequence 0 to the editor: no restore, shift or fork, a delete only of
a positive sequence, and a copy only into a sequence other than 0. -/
def TeCall.KeepsSeqZero : TeCall → Prop
  | .deleteSequence seqId => 0 < seqId.toInt
  | .copySequence _ dst => dst ≠ 0
  | .forkSequence _ | .shiftKvCache _ _ | .restoreSnapshot _ => False
  | _ => True

instance : DecidablePred TeCall.KeepsSeqZero := fun c => by
  cases c <;> unfold TeCall.KeepsSeqZero <;> infer_instance

theorem teStep_ctx_of_map {α : Type} {o : Option (α × TeContext)} {w w' : TeWorld}
    (h : o.map ({ w with ctx := ·.2 }) = some w') : ∃ a, o = some (a, w'.ctx) := by
  obtain ⟨⟨a, c⟩, ho, rfl⟩ := Option.map_eq_some'.mp h
  exact ⟨a, ho⟩

/-- One call that leaves sequence 0 to the editor keeps the flag sound. -/
theorem teStep_cacheSound {w w' : TeWorld} {c : TeCall} (hw : w.ctx.Wf) (hk : c.KeepsSeqZero)
    (hs : w.ctx.CacheSound) (h : teStep M w c = some w') : w'.ctx.CacheSound := by
  cases c with
  | setToken => obtain ⟨_, h⟩ := teStep_ctx_of_map h; exact (teSetToken_cacheEdit M h).sound hs
  | insertTokens =>
    obtain ⟨_, h⟩ := teStep_ctx_of_map h; exact (teInsertTokens_cacheEdit M hw h).sound hs
  | deleteTokens => obtain ⟨_, h⟩ := teStep_ctx_of_map h; exact (teDeleteTokens_cacheEdit h).sound hs
  | replaceTokens =>
    obtain ⟨_, h⟩ := teStep_ctx_of_map h; exact (teReplaceTokens_cacheEdit M hw h).sound hs
  | replaceText =>
    obtain ⟨_, h⟩ := teStep_ctx_of_map h; exact (teReplaceText_cacheEdit M hw h).sound hs
  | clear => obtain ⟨_, h⟩ := teStep_ctx_of_map h; exact (teClear_cacheEdit h).sound hs
  | undo => obtain ⟨_, h⟩ := teStep_ctx_of_map h; exact (teUndo_cacheEdit M h).sound hs
  | redo => obtain ⟨_, h⟩ := teStep_ctx_of_map h; exact (teRedo_cacheEdit M h).sound hs
  | importBinary =>
    obtain ⟨_, h⟩ := teStep_ctx_of_map h; exact (teImportBinary_cacheEdit M hw h).sound hs
  | createSequence =>
    obtain ⟨_, h⟩ := teStep_ctx_of_map h; exact (teCreateSequence_cacheFrame h).sound hs
  | deleteSequence =>
    obtain ⟨_, h⟩ := teStep_ctx_of_map h; exact (teDeleteSequence_cacheFrame hk h).sound hs
  | syncKvCache => obtain ⟨_, h⟩ := teStep_ctx_of_map h; exact teSyncKvCache_sound hw hs h
  | createSnapshot =>
    obtain ⟨⟨_, _⟩, ho, rfl⟩ := Option.map_eq_some'.mp h
    exact (teCreateSnapshot_cacheFrame ho).sound hs
  | copySequence => cases h; exact (teCopySequence_cacheFrame hk).sound hs
  | setHistoryLimit | clearHistory | setReadonly => cases h; exact (TeContext.CacheFrame.refl _).sound hs
  | invalidateKvRange | clearKvCache => cases h; exact (TeContext.CacheEdit.of_dirty rfl).sound hs
  | forkSequence | shiftKvCache | restoreSnapshot => exact hk.elim

/-- A run of such calls from a well-formed editor whose flag is sound keeps it sound. -/
theorem teRun_cacheSound_of {w w' : TeWorld} {cs : List TeCall} (hw : w.ctx.Wf)
    (hk : ∀ c ∈ cs, c.KeepsSeqZero) (hs : w.ctx.CacheSound) (h : teRun M w cs = some w') :
    w'.ctx.CacheSound := by
  induction cs generalizing w with
  | nil => cases h; exact hs
  | cons c cs ih =>
    obtain ⟨w1, h1, h⟩ := (teRun_cons_eq_some M).mp h
    have hk1 := hk c (List.mem_cons_self c cs)
    exact ih (teStep_reshaped M hw h1).wf (fun c hc => hk c (List.mem_cons_of_mem _ hc))
      (teStep_cacheSound M hw hk1 hs h1) h

/-- From `te_init` on a runtime context whose sequence 0 is empty, after every run of calls that
leave sequence 0 to the editor, a clean editor's sequence 0 holds exactly its buffer. -/
theorem teRun_clean_coherent {lctx : LlamaContext} {heap : List Bool} {ctx0 : TeContext}
    (h0 : (teInit lctx heap).1 = some ctx0) (hz : kvSeqCells lctx 0 = []) {cs : List TeCall}
    (hk : ∀ c ∈ cs, c.KeepsSeqZero) {w : TeWorld} (h : teRun M ⟨ctx0, []⟩ cs = some w) :
    w.ctx.kvCacheDirty = false → w.ctx.Coherent := by
  have hi := teInit_initial h0
  refine teRun_cacheSound_of M hi.wf hk (fun _ => TeContext.coherent_of_eq ?_) h
  simp only [hi.llamaCtx_eq, hz, teCachedView, TeContext.view, hi.nTokens_eq, List.take_zero,
    List.mapIdx_nil]

/-- From `te_init` on an empty runtime context, an insertion of `[0, 1, 2]` and one
`te_sync_kv_cache` leave sequence 0 to the editor and end clean, with sequence 0 holding the
buffer. -/
theorem teRun_clean_coherent_sync : ∃ (ctx0 : TeContext) (w : TeWorld),
    (teInit ⟨[], []⟩ []).1 = some ctx0 ∧
      teRun default ⟨ctx0, []⟩ [.insertTokens 0 0 (some [0, 1, 2]) 3, .syncKvCache] = some w ∧
      w.ctx.kvCacheDirty = false ∧ w.ctx.Coherent := by
  obtain ⟨ctx0, h0, ha⟩ := teInit_allocOk ⟨[], []⟩ (List.not_mem_nil true)
  have hi := teInit_initial h0
  obtain ⟨c1, h1, he, -⟩ := teInsertTokens_spec default 0 0 [0, 1, 2] 3 ⟨hi.wf, hi.writable, ha⟩
    (by decide) (by simp [hi.nTokens_eq]) (by decide) (by decide)
  have hsync : ∀ t s d toks, ∃ c, teSyncKvCache (teRecordEdit c1 t s d toks) = some (.ok, c) ∧
      c.kvCacheDirty = false := fun t s d toks => by
    obtain ⟨c, hs, hd, -⟩ := teSyncKvCache_coherent (he.wf.of_shape (teRecordEdit_shape c1 t s d toks))
      (by rw [teRecordEdit_kvCacheDirty, he.frame]) (by rw [teRecordEdit_llamaCtx, he.frame, hi.llamaCtx_eq]; rfl)
    exact ⟨c, hs, hd⟩
  obtain ⟨c, hs, hd⟩ := hsync .insert ⟨0, toPos ((0 : Int32).toInt.toNat + 3), 0⟩
    ⟨0, toPos ((0 : Int32).toInt.toNat + 3), 0⟩ ([0, 1, 2].take 3)
  have hrun : teRun default ⟨ctx0, []⟩ [.insertTokens 0 0 (some [0, 1, 2]) 3, .syncKvCache] =
      some ⟨c, []⟩ := by
    simp only [teRun, teStep, h1, hs, Option.map_some', Option.some_bind]
  exact ⟨ctx0, _, h0, hrun, hd, teRun_clean_coherent default h0 rfl (by decide) hrun hd⟩

end Runs

end TokenEditor
