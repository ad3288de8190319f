import TokenEditor.TEHistorySpec
import TokenEditor.TEMachine

/-! The blocks over whole runs. A call changes the capacity only through one
`te_ensure_capacity` whose request is the count the call leaves, so every reachable editor is
well formed, its capacity is the default doubled some number of times, and past the default it
is less than twice the largest buffer the run has held. -/
namespace TokenEditor

/-- The fields that make up an editor's buffer. -/
def TeContext.shape (ctx : TeContext) : List Int32 × List TeTokenInfo × Nat × Nat :=
  (ctx.tokens, ctx.tokenInfo, ctx.nTokens, ctx.capacity)

@[simp] theorem teMalloc_shape (ctx : TeContext) : (teMalloc ctx).2.shape = ctx.shape := rfl

@[simp] theorem teRecordEdit_shape (ctx : TeContext) (type : TeOpType) (source dest : TeRange)
    (tokens : List Int32) : (teRecordEdit ctx type source dest tokens).shape = ctx.shape := by
  simp only [TeContext.shape, teRecordEdit_tokens, teRecordEdit_tokenInfo, teRecordEdit_nTokens,
    teRecordEdit_capacity]

theorem TeContext.Wf.of_shape {ctx c : TeContext} (hw : ctx.Wf) (h : c.shape = ctx.shape) :
    c.Wf := by
  simp only [TeContext.shape, Prod.mk.injEq] at h
  obtain ⟨ht, hi, hn, hc⟩ := h
  exact ⟨by rw [hn, hc]; exact hw.1, by rw [hc, ht]; exact hw.2, by rw [hi, hc]; exact hw.3,
    by rw [hc]; exact hw.4⟩

/-- `c` differs from `ctx` at most in the cache, the sequences, the cache flags and the
allocator. -/
def TeContext.CacheOnly (ctx c : TeContext) : Prop :=
  c = { ctx with llamaCtx := c.llamaCtx, activeSequences := c.activeSequences
                 nSequences := c.nSequences, kvCacheDirty := c.kvCacheDirty
                 logitsValid := c.logitsValid, mallocFails := c.mallocFails }

section CacheOnly
variable {ctx c c' : TeContext}

theorem TeContext.CacheOnly.refl (ctx : TeContext) : ctx.CacheOnly ctx := rfl

theorem TeContext.CacheOnly.trans (h : ctx.CacheOnly c) (h' : c.CacheOnly c') : ctx.CacheOnly c' := by
  unfold TeContext.CacheOnly at *
  conv_lhs => rw [h', h]

theorem TeContext.CacheOnly.shape_eq (h : ctx.CacheOnly c) : c.shape = ctx.shape := by
  rw [h]; rfl

theorem teMalloc_cacheOnly (ctx : TeContext) : ctx.CacheOnly (teMalloc ctx).2 := rfl

theorem teCreateSequence_cacheOnly {id : Int32} (h : teCreateSequence ctx = some (id, c)) :
    ctx.CacheOnly c := by
  simp only [teCreateSequence, Option.bind_eq_bind] at h
  obtain ⟨_, -, h⟩ := Option.bind_eq_some.mp h
  split at h
  · cases h; rfl
  · obtain ⟨_, -, h⟩ := Option.bind_eq_some.mp h
    cases h; rfl

theorem teDeleteSequence_cacheOnly {seqId : Int32} {e : TeError}
    (h : teDeleteSequence ctx seqId = some (e, c)) : ctx.CacheOnly c := by
  simp only [teDeleteSequence, Option.bind_eq_bind] at h
  obtain ⟨_, -, h⟩ := Option.bind_eq_some.mp h
  split at h
  · cases h; rfl
  · obtain ⟨_, -, h⟩ := Option.bind_eq_some.mp h
    cases h; rfl

theorem teForkSequence_cacheOnly {src id : Int32} (h : teForkSequence ctx src = some (id, c)) :
    ctx.CacheOnly c := by
  simp only [teForkSequence, Option.bind_eq_bind] at h
  obtain ⟨⟨_, c1⟩, hc, h⟩ := Option.bind_eq_some.mp h
  refine (teCreateSequence_cacheOnly hc).trans ?_
  dsimp only at h
  split at h <;> (cases h; rfl)

theorem teSyncKvCache_cacheOnly {e : TeError} (h : teSyncKvCache ctx = some (e, c)) :
    ctx.CacheOnly c := by
  unfold teSyncKvCache at h
  split at h; · cases h; rfl
  dsimp only at h
  split at h
  · simp only [Option.bind_eq_bind] at h
    obtain ⟨_, -, h⟩ := Option.bind_eq_some.mp h
    split at h <;> (cases h; rfl)
  · cases h; rfl

theorem teCreateSnapshot_cacheOnly {snap : Option TeSnapshot}
    (h : teCreateSnapshot ctx = some (snap, c)) : ctx.CacheOnly c := by
  unfold teCreateSnapshot at h
  dsimp only at h
  have h1 := teMalloc_cacheOnly ctx
  split at h; · cases h; exact h1
  have h2 := h1.trans (teMalloc_cacheOnly _)
  split at h
  · have h3 := h2.trans (teMalloc_cacheOnly _)
    split at h; · cases h; exact h3
    obtain ⟨_, -, h⟩ := Option.bind_eq_some.mp h
    obtain ⟨_, -, h⟩ := Option.bind_eq_some.mp h
    obtain rfl : _ = c := congrArg Prod.snd (Option.some.inj h)
    exact h3.trans (teMalloc_cacheOnly _)
  · obtain rfl : _ = c := congrArg Prod.snd (Option.some.inj h)
    exact h1.trans (teMalloc_cacheOnly _)

end CacheOnly

/-- What a call may do to the blocks: the editor stays well formed, and the capacity is kept
or is the one `te_ensure_capacity` settles on for the count the call leaves. -/
structure TeContext.Reshaped (ctx c : TeContext) : Prop where
  wf : c.Wf
  capacity : c.capacity = ctx.capacity ∨
    (ctx.capacity < c.nTokens ∧ c.capacity = teGrowCapacity c.nTokens (ctx.capacity * 2) c.nTokens)

section Reshaped
variable {ctx c c' : TeContext}

theorem TeContext.Reshaped.of_shape (hw : ctx.Wf) (h : c.shape = ctx.shape) : ctx.Reshaped c :=
  ⟨hw.of_shape h, .inl (congrArg (·.2.2.2) h)⟩

theorem TeContext.Reshaped.refl (hw : ctx.Wf) : ctx.Reshaped ctx := .of_shape hw rfl

/-- A call that keeps the capacity and the block sizes and does not grow the buffer. -/
theorem TeContext.Reshaped.of_le (hw : ctx.Wf) (hc : c.capacity = ctx.capacity)
    (hn : c.nTokens ≤ ctx.nTokens) (ht : c.tokens.length = ctx.tokens.length)
    (hi : c.tokenInfo.length = ctx.tokenInfo.length) : ctx.Reshaped c :=
  ⟨⟨by have := hw.1; omega, by rw [hc, ht]; exact hw.2, by rw [hi, hc]; exact hw.3,
    by rw [hc]; exact hw.4⟩, .inl hc⟩

theorem TeContext.Reshaped.congr (h : ctx.Reshaped c) (hs : c'.shape = c.shape) :
    ctx.Reshaped c' := by
  have hc : c'.capacity = c.capacity := congrArg (·.2.2.2) hs
  have hn : c'.nTokens = c.nTokens := congrArg (·.2.2.1) hs
  exact ⟨h.wf.of_shape hs, by rw [hc, hn]; exact h.capacity⟩

theorem TeContext.Reshaped.of_capacity_eq (h : c.capacity = ctx.capacity) (h' : c.Reshaped c') :
    ctx.Reshaped c' :=
  ⟨h'.wf, h ▸ h'.capacity⟩

variable {r : Nat}

/-- A failed `te_ensure_capacity` keeps the capacity. -/
theorem TeContext.Reshaped.of_ensure_error (hw : ctx.Wf) (he : (teEnsureCapacity ctx r).1 ≠ .ok) :
    ctx.Reshaped (teEnsureCapacity ctx r).2 := by
  refine ⟨hw.teEnsureCapacity, .inl ?_⟩
  rcases teEnsureCapacity_cases ctx r with ⟨-, h⟩ | ⟨-, toks, m, -, h⟩ | h
  · rw [h]
  · rw [h]
  · rw [h] at he; exact absurd rfl he

/-- After a successful `te_ensure_capacity` of `r`, a call that leaves `r` tokens in blocks of
the sizes it got. -/
theorem TeContext.Reshaped.of_ensure (hw : ctx.Wf) (hok : (teEnsureCapacity ctx r).1 = .ok)
    (hn : c.nTokens = r) (hc : c.capacity = (teEnsureCapacity ctx r).2.capacity)
    (ht : c.tokens.length = (teEnsureCapacity ctx r).2.tokens.length)
    (hi : c.tokenInfo.length = (teEnsureCapacity ctx r).2.tokenInfo.length) : ctx.Reshaped c := by
  have hw1 : (teEnsureCapacity ctx r).2.Wf := hw.teEnsureCapacity
  have hr := teEnsureCapacity_ok hw hok
  refine ⟨⟨by omega, by rw [hc, ht]; exact hw1.2, by rw [hi, hc]; exact hw1.3,
    by rw [hc]; exact hw1.4⟩, ?_⟩
  rw [hc, hn]
  by_cases hle : r ≤ ctx.capacity
  · rw [teEnsureCapacity_of_le hle]; exact .inl rfl
  · rcases teEnsureCapacity_cases ctx r with ⟨hle', -⟩ | ⟨-, toks, m, -, h⟩ | h
    · exact absurd hle' hle
    · rw [h] at hok; cases hok
    · rw [h]; exact .inr ⟨by omega, rfl⟩

end Reshaped

theorem length_of_shift {α : Type} {a b : List α} {d s n : Nat} {p : Prop} [Decidable p]
    (h : (if p then blockMove a d s n else pure a) = some b) : b.length = a.length := by
  split at h
  · exact length_blockMove h
  · cases h; rfl

section Mutators
variable (M : LlamaModel) {ctx c : TeContext} {e : TeError} (hw : ctx.Wf)
include hw

theorem teSetToken_reshaped {pos seqId token : Int32}
    (h : teSetToken M ctx pos seqId token = some (e, c)) : ctx.Reshaped c := by
  unfold teSetToken at h
  split_ifs at h
  · cases h; exact .refl hw
  · cases h; exact .refl hw
  simp only [Option.bind_eq_bind] at h
  obtain ⟨_, -, h⟩ := Option.bind_eq_some.mp h
  obtain ⟨t, ht, h⟩ := Option.bind_eq_some.mp h
  obtain ⟨_, -, h⟩ := Option.bind_eq_some.mp h
  obtain ⟨i, hi, h⟩ := Option.bind_eq_some.mp h
  cases h
  exact .of_le hw (teRecordEdit_capacity ..) (teRecordEdit_nTokens ..).le
    (by rw [length_blockWrite ht, teRecordEdit_tokens]) (by rw [length_blockWrite hi, teRecordEdit_tokenInfo])

theorem teInsertTokens_reshaped {pos seqId : Int32} {tokens : Option (List Int32)} {n : Nat}
    (h : teInsertTokens M ctx pos seqId tokens n = some (e, c)) : ctx.Reshaped c := by
  unfold teInsertTokens at h
  split at h; · cases h; exact .refl hw
  split at h; · cases h; exact .refl hw
  split at h; · cases h; exact .refl hw
  split at h; · cases h; exact .refl hw
  dsimp only at h
  generalize hE : teEnsureCapacity ctx (ctx.nTokens + n) = E at h
  split at h
  · cases h; rw [← hE]; exact .of_ensure_error hw (by rw [hE]; assumption)
  next hok =>
  obtain ⟨t1, ht1, h⟩ := Option.bind_eq_some.mp h
  obtain ⟨i1, hi1, h⟩ := Option.bind_eq_some.mp h
  obtain ⟨_, -, h⟩ := Option.bind_eq_some.mp h
  obtain ⟨t2, ht2, h⟩ := Option.bind_eq_some.mp h
  obtain ⟨i2, hi2, h⟩ := Option.bind_eq_some.mp h
  cases h
  have hn : E.2.nTokens = ctx.nTokens := by rw [← hE, (teEnsureCapacity_grows hw).frame]
  have h1 : ctx.Reshaped { E.2 with tokens := t2, tokenInfo := i2, nTokens := E.2.nTokens + n } :=
    .of_ensure hw (by rw [hE]; exact not_not.mp hok) (by dsimp only; rw [hn]) (by rw [hE])
      (by rw [hE]; dsimp only; rw [length_blockWrite ht2, length_of_shift ht1])
      (by rw [hE]; dsimp only; rw [length_blockWrite hi2, length_of_shift hi1])
  exact h1.congr (teRecordEdit_shape ..)

theorem teDeleteTokens_reshaped {range : TeRange} (h : teDeleteTokens ctx range = some (e, c)) :
    ctx.Reshaped c := by
  unfold teDeleteTokens at h
  split at h; · cases h; exact .refl hw
  split at h
  split at h; · cases h; exact .refl hw
  split at h
  next c1 hm =>
  simp only [Option.bind_eq_bind] at h
  obtain ⟨c2, h2, h⟩ := Option.bind_eq_some.mp h
  have hs : c2.shape = ctx.shape := by
    rw [← teMalloc_shape ctx, hm]
    split at h2
    · obtain ⟨_, -, h2⟩ := Option.bind_eq_some.mp h2
      cases h2; exact teRecordEdit_shape ..
    · cases h2; rfl
  obtain ⟨t, ht, h⟩ := Option.bind_eq_some.mp h
  obtain ⟨i, hi, h⟩ := Option.bind_eq_some.mp h
  cases h
  simp only [TeContext.shape, Prod.mk.injEq] at hs
  exact .of_le hw hs.2.2.2 (by dsimp only; omega) (by rw [length_of_shift ht, hs.1])
    (by rw [length_of_shift hi, hs.2.1])

theorem teReplaceTokens_reshaped {range : TeRange} {tokens : Option (List Int32)} {n : Nat}
    (h : teReplaceTokens M ctx range tokens n = some (e, c)) : ctx.Reshaped c := by
  unfold teReplaceTokens at h
  split at h; · cases h; exact .refl hw
  split at h
  next start stop _ =>
  dsimp only at h
  generalize hm : (if 0 < (if start.toInt < stop.toInt then (stop.toInt - start.toInt).toNat else 0)
    then teMalloc ctx else (false, ctx)) = m at h
  have hsm : m.2.shape = ctx.shape := by rw [← hm]; split <;> split <;> rfl
  have hwm : m.2.Wf := hw.of_shape hsm
  obtain ⟨saved, -, h⟩ := Option.bind_eq_some.mp h
  refine .of_capacity_eq (congrArg (·.2.2.2) hsm) ?_
  generalize hr : m.2.nTokens -
    (if start.toInt < stop.toInt then (stop.toInt - start.toInt).toNat else 0) + n = r at h
  generalize hE : teEnsureCapacity m.2 r = E at h
  split at h
  · cases h; rw [← hE]; exact .of_ensure_error hwm (by rw [hE]; assumption)
  next hok =>
  obtain ⟨t1, ht1, h⟩ := Option.bind_eq_some.mp h
  obtain ⟨i1, hi1, h⟩ := Option.bind_eq_some.mp h
  obtain ⟨_, -, h⟩ := Option.bind_eq_some.mp h
  obtain ⟨t2, ht2, h⟩ := Option.bind_eq_some.mp h
  obtain ⟨i2, hi2, h⟩ := Option.bind_eq_some.mp h
  have hlt : t2.length = t1.length := by split at ht2 <;> first | exact length_blockWrite ht2 | (cases ht2; rfl)
  have hli : i2.length = i1.length := by split at hi2 <;> first | exact length_blockWrite hi2 | (cases hi2; rfl)
  have h1 : m.2.Reshaped { E.2 with tokens := t2, tokenInfo := i2, nTokens := r } :=
    .of_ensure hwm (by rw [hE]; exact not_not.mp hok) rfl (by rw [hE])
      (by rw [hE]; dsimp only; rw [hlt, length_of_shift ht1])
      (by rw [hE]; dsimp only; rw [hli, length_of_shift hi1])
  split at h <;> (cases h; first | exact h1.congr (teRecordEdit_shape ..) | exact h1.congr rfl)

theorem teReplaceText_reshaped {range : TeRange} {text : Option (List UInt8)}
    (h : teReplaceText M ctx range text = some (e, c)) : ctx.Reshaped c := by
  unfold teReplaceText at h
  split at h; · cases h; exact .refl hw
  dsimp only at h
  split at h; · cases h; exact .of_shape hw rfl
  split at h; · cases h; exact .of_shape hw rfl
  have := teReplaceTokens_reshaped M (hw.of_shape (teMalloc_shape ctx)) h
  exact .of_capacity_eq (show (teMalloc ctx).2.capacity = ctx.capacity from rfl) this

omit hw in
/-- `te_clear` keeps both blocks and the capacity. -/
theorem teClear_blocks {seqId : Int32} (h : teClear ctx seqId = some (e, c)) :
    c.tokens = ctx.tokens ∧ c.tokenInfo = ctx.tokenInfo ∧ c.capacity = ctx.capacity ∧
      c.nTokens ≤ ctx.nTokens := by
  unfold teClear at h
  split at h; · cases h; exact ⟨rfl, rfl, rfl, le_rfl⟩
  simp only [Option.bind_eq_bind] at h
  obtain ⟨c1, hc, h⟩ := Option.bind_eq_some.mp h
  cases h
  have hs : c1.shape = ctx.shape := by
    split at hc
    · obtain ⟨_, -, hc⟩ := Option.bind_eq_some.mp hc
      cases hc; exact teRecordEdit_shape ..
    · cases hc; rfl
  simp only [TeContext.shape, Prod.mk.injEq] at hs
  exact ⟨hs.1, hs.2.1, hs.2.2.2, Nat.zero_le _⟩

theorem teClear_reshaped {seqId : Int32} (h : teClear ctx seqId = some (e, c)) : ctx.Reshaped c :=
  have hb := teClear_blocks h
  .of_le hw hb.2.2.1 hb.2.2.2 (congrArg List.length hb.1) (congrArg List.length hb.2.1)

theorem teUndoReplay_reshaped {op : TeEditOp} (h : teUndoReplay M ctx op = some c) :
    ctx.Reshaped c := by
  unfold teUndoReplay at h
  split at h
  · obtain ⟨_, hm, rfl⟩ := Option.map_eq_some'.mp h; exact teDeleteTokens_reshaped hw hm
  · obtain ⟨_, hm, rfl⟩ := Option.map_eq_some'.mp h; exact teInsertTokens_reshaped M hw hm
  · obtain ⟨_, hm, rfl⟩ := Option.map_eq_some'.mp h; exact teReplaceTokens_reshaped M hw hm
  · cases h; exact .refl hw

theorem teRedoReplay_reshaped {op : TeEditOp} (h : teRedoReplay M ctx op = some c) :
    ctx.Reshaped c := by
  unfold teRedoReplay at h
  split at h
  · obtain ⟨_, hm, rfl⟩ := Option.map_eq_some'.mp h; exact teInsertTokens_reshaped M hw hm
  · obtain ⟨_, hm, rfl⟩ := Option.map_eq_some'.mp h; exact teDeleteTokens_reshaped hw hm
  · obtain ⟨_, hm, rfl⟩ := Option.map_eq_some'.mp h; exact teReplaceTokens_reshaped M hw hm
  · cases h; exact .refl hw

theorem teUndo_reshaped (h : teUndo M ctx = some (e, c)) : ctx.Reshaped c := by
  unfold teUndo at h
  split at h; · cases h; exact .refl hw
  split at h; · cases h; exact .refl hw
  simp only [Option.bind_eq_bind] at h
  obtain ⟨r, hr, h⟩ := Option.bind_eq_some.mp h
  cases h
  exact (TeContext.Reshaped.of_capacity_eq (by rfl)
    (teUndoReplay_reshaped M (by exact hw.of_shape rfl) hr)).congr rfl

theorem teRedo_reshaped (h : teRedo M ctx = some (e, c)) : ctx.Reshaped c := by
  unfold teRedo at h
  split at h; · cases h; exact .refl hw
  simp only [Option.bind_eq_bind] at h
  obtain ⟨r, hr, h⟩ := Option.bind_eq_some.mp h
  cases h
  exact (TeContext.Reshaped.of_capacity_eq (by rfl)
    (teRedoReplay_reshaped M (by exact hw.of_shape rfl) hr)).congr rfl

theorem teRestoreSnapshot_reshaped {snap : TeSnapshot}
    (h : teRestoreSnapshot ctx snap = some (e, c)) : ctx.Reshaped c := by
  unfold teRestoreSnapshot at h
  dsimp only at h
  generalize hE : teEnsureCapacity ctx snap.nTokens = E at h
  split at h
  · cases h; rw [← hE]; exact .of_ensure_error hw (by rw [hE]; assumption)
  next hok =>
  simp only [Option.bind_eq_bind] at h
  obtain ⟨c1, hc, h⟩ := Option.bind_eq_some.mp h
  have hok' : (teEnsureCapacity ctx snap.nTokens).1 = .ok := by rw [hE]; exact not_not.mp hok
  have h1 : ctx.Reshaped c1 := by
    split at hc
    · obtain ⟨_, -, hc⟩ := Option.bind_eq_some.mp hc
      obtain ⟨_, -, hc⟩ := Option.bind_eq_some.mp hc
      obtain ⟨t, ht, hc⟩ := Option.bind_eq_some.mp hc
      obtain ⟨i, hi, hc⟩ := Option.bind_eq_some.mp hc
      cases hc
      exact .of_ensure hw hok' rfl (by rw [hE]) (by rw [hE]; exact length_blockWrite ht)
        (by rw [hE]; exact length_blockWrite hi)
    · cases hc
      exact .of_ensure hw hok' rfl (by rw [hE]) (by rw [hE]) (by rw [hE])
  split at h <;> (cases h; exact h1.congr rfl)

theorem teImportBinary_reshaped {seqId : Int32} {buf : List UInt8}
    (h : teImportBinary M ctx seqId buf = some (e, c)) : ctx.Reshaped c := by
  unfold teImportBinary at h
  split at h; · cases h; exact .refl hw
  dsimp only at h
  split at h; · cases h; exact .refl hw
  simp only [Option.bind_eq_bind] at h
  obtain ⟨⟨_, c1⟩, hc, h⟩ := Option.bind_eq_some.mp h
  have hw1 := (teClear_reshaped hw hc).wf
  refine .of_capacity_eq (teClear_blocks hc).2.2.1 ?_
  dsimp only at h
  generalize hE : teEnsureCapacity c1 (u32OfBytes buf) = E at h
  split at h
  · cases h; rw [← hE]; exact .of_ensure_error hw1 (by rw [hE]; assumption)
  next hok =>
  obtain ⟨_, -, h⟩ := Option.bind_eq_some.mp h
  obtain ⟨t, ht, h⟩ := Option.bind_eq_some.mp h
  obtain ⟨i, hi, h⟩ := Option.bind_eq_some.mp h
  cases h
  exact .of_ensure hw1 (by rw [hE]; exact not_not.mp hok) rfl (by rw [hE])
    (by rw [hE]; exact length_blockWrite ht) (by rw [hE]; exact length_blockWrite hi)

end Mutators

variable (M : LlamaModel)

/-- One call of the machine reshapes the editor's blocks. -/
theorem teStep_reshaped {w w' : TeWorld} {c : TeCall} (hw : w.ctx.Wf) (h : teStep M w c = some w') :
    w.ctx.Reshaped w'.ctx := by
  cases c with
  | setToken =>
    obtain ⟨_, hm, rfl⟩ := Option.map_eq_some'.mp h; exact teSetToken_reshaped M hw hm
  | insertTokens =>
    obtain ⟨_, hm, rfl⟩ := Option.map_eq_some'.mp h; exact teInsertTokens_reshaped M hw hm
  | deleteTokens =>
    obtain ⟨_, hm, rfl⟩ := Option.map_eq_some'.mp h; exact teDeleteTokens_reshaped hw hm
  | replaceTokens =>
    obtain ⟨_, hm, rfl⟩ := Option.map_eq_some'.mp h; exact teReplaceTokens_reshaped M hw hm
  | replaceText =>
    obtain ⟨_, hm, rfl⟩ := Option.map_eq_some'.mp h; exact teReplaceText_reshaped M hw hm
  | clear => obtain ⟨_, hm, rfl⟩ := Option.map_eq_some'.mp h; exact teClear_reshaped hw hm
  | undo => obtain ⟨_, hm, rfl⟩ := Option.map_eq_some'.mp h; exact teUndo_reshaped M hw hm
  | redo => obtain ⟨_, hm, rfl⟩ := Option.map_eq_some'.mp h; exact teRedo_reshaped M hw hm
  | importBinary =>
    obtain ⟨_, hm, rfl⟩ := Option.map_eq_some'.mp h; exact teImportBinary_reshaped M hw hm
  | createSequence =>
    obtain ⟨_, hm, rfl⟩ := Option.map_eq_some'.mp h
    exact .of_shape hw (teCreateSequence_cacheOnly hm).shape_eq
  | deleteSequence =>
    obtain ⟨_, hm, rfl⟩ := Option.map_eq_some'.mp h
    exact .of_shape hw (teDeleteSequence_cacheOnly hm).shape_eq
  | forkSequence =>
    obtain ⟨_, hm, rfl⟩ := Option.map_eq_some'.mp h
    exact .of_shape hw (teForkSequence_cacheOnly hm).shape_eq
  | syncKvCache =>
    obtain ⟨_, hm, rfl⟩ := Option.map_eq_some'.mp h
    exact .of_shape hw (teSyncKvCache_cacheOnly hm).shape_eq
  | createSnapshot =>
    obtain ⟨⟨_, _⟩, hm, rfl⟩ := Option.map_eq_some'.mp h
    exact .of_shape hw (teCreateSnapshot_cacheOnly hm).shape_eq
  | restoreSnapshot =>
    simp only [teStep, Option.bind_eq_bind] at h
    obtain ⟨_, -, h⟩ := Option.bind_eq_some.mp h
    obtain ⟨_, hm, rfl⟩ := Option.map_eq_some'.mp h; exact teRestoreSnapshot_reshaped hw hm
  | setHistoryLimit | clearHistory | copySequence | invalidateKvRange | clearKvCache
  | shiftKvCache | setReadonly => cases h; exact .of_shape hw rfl

/-- Every reachable editor is well formed. -/
theorem TeReachable.wf {lctx : LlamaContext} {w : TeWorld} (hr : TeReachable M lctx w) : w.ctx.Wf :=
  hr.induct' M (fun w => w.ctx.Wf) (fun _ _ h => (teInit_initial h).wf)
    (fun _ _ _ hw h => (teStep_reshaped M hw h).wf)

/-- The editors reachable from `te_init` on `lctx`, with the largest `n_tokens` held along the
run that reached them. -/
inductive TeReachablePeak (lctx : LlamaContext) : TeWorld → Nat → Prop
  | init {heap : List Bool} {ctx : TeContext} (h : (teInit lctx heap).1 = some ctx) :
      TeReachablePeak lctx ⟨ctx, []⟩ 0
  | step {w w' : TeWorld} {peak : Nat} (c : TeCall) (hw : TeReachablePeak lctx w peak)
      (h : teStep M w c = some w') : TeReachablePeak lctx w' (max peak w'.ctx.nTokens)

theorem TeReachablePeak.reachable {lctx : LlamaContext} {w : TeWorld} {peak : Nat}
    (h : TeReachablePeak M lctx w peak) : TeReachable M lctx w := by
  induction h with
  | init h => exact .init h
  | step c _ h ih => exact .step c ih h

theorem TeReachable.peak {lctx : LlamaContext} {w : TeWorld} (h : TeReachable M lctx w) :
    ∃ peak, TeReachablePeak M lctx w peak := by
  induction h with
  | init h => exact ⟨0, .init h⟩
  | step c _ h ih => obtain ⟨peak, hp⟩ := ih; exact ⟨_, .step c hp h⟩

theorem teGrowCapacity_mul_pow (fuel c r : Nat) : ∃ j, teGrowCapacity fuel c r = c * 2 ^ j := by
  induction fuel generalizing c with
  | zero => exact ⟨0, by simp [teGrowCapacity]⟩
  | succ fuel ih =>
    unfold teGrowCapacity
    split
    · obtain ⟨j, hj⟩ := ih (c * 2)
      exact ⟨j + 1, by rw [hj, pow_succ']; ring⟩
    · exact ⟨0, by simp⟩

/-- The doubling stops below twice the request. -/
theorem teGrowCapacity_lt {fuel c r : Nat} (h : c < 2 * r) : teGrowCapacity fuel c r < 2 * r := by
  induction fuel generalizing c with
  | zero => exact h
  | succ fuel ih =>
    unfold teGrowCapacity
    split
    · exact ih (by omega)
    · exact h

/-- The capacity facts a run keeps, against the largest count `peak` it has held. -/
def TeContext.CapacityOk (ctx : TeContext) (peak : Nat) : Prop :=
  ctx.Wf ∧ (∃ k, ctx.capacity = teDefaultCapacity * 2 ^ k) ∧
    (ctx.capacity = teDefaultCapacity ∨ ctx.capacity < 2 * peak) ∧ ctx.nTokens ≤ peak

theorem TeContext.CapacityOk.step {ctx c : TeContext} {peak : Nat} (h : ctx.CapacityOk peak)
    (hs : ctx.Reshaped c) : c.CapacityOk (max peak c.nTokens) := by
  obtain ⟨-, ⟨k, hk⟩, hb, -⟩ := h
  refine ⟨hs.wf, ?_, ?_, le_max_right _ _⟩ <;> rcases hs.capacity with hc | ⟨hlt, hc⟩
  · exact ⟨k, by rw [hc, hk]⟩
  · obtain ⟨j, hj⟩ := teGrowCapacity_mul_pow c.nTokens (ctx.capacity * 2) c.nTokens
    exact ⟨k + 1 + j, by rw [hc, hj, hk]; ring⟩
  · rw [hc]; omega
  · have : teGrowCapacity c.nTokens (ctx.capacity * 2) c.nTokens < 2 * c.nTokens :=
      teGrowCapacity_lt (by omega)
    omega

/-- The `size_t` loop agrees with the model's while it cannot wrap: from `x < 2 r` with
`r ≤ 2^62`, it settles within `f + 1` calls once `r ≤ x 2^f`. -/
theorem teDoublingLoop_eq {r : Nat} (hr : r ≤ 2 ^ 62) (f : Nat) : ∀ {x g : Nat}, 0 < x →
    x < 2 * r → r ≤ x * 2 ^ f → r ≤ x * 2 ^ g →
    ∃ k, k ≤ f ∧ teDoublingLoop (f + 1) x r = some (teGrowCapacity g x r, k) := by
  induction f with
  | zero =>
    intro x g _ _ hf _
    have hg : teGrowCapacity g x r = x := by cases g <;> simp [teGrowCapacity]; omega
    exact ⟨0, le_rfl, by simp [teDoublingLoop, hg]; omega⟩
  | succ f ih =>
    intro x g hx hx2 hf hg
    by_cases hxr : x < r
    · obtain ⟨g, rfl⟩ : ∃ g', g = g' + 1 := Nat.exists_eq_succ_of_ne_zero (by
        rintro rfl; simp at hg; omega)
      have hm : x * 2 % 2 ^ 64 = x * 2 := Nat.mod_eq_of_lt (by omega)
      obtain ⟨k, hk, he⟩ := ih (x := x * 2) (g := g) (by omega) (by omega)
        (by rwa [pow_succ', ← Nat.mul_assoc] at hf) (by rwa [pow_succ', ← Nat.mul_assoc] at hg)
      refine ⟨k + 1, by omega, ?_⟩
      rw [teDoublingLoop, if_pos hxr, hm, he, teGrowCapacity, if_pos hxr]
      rfl
    · have hg' : teGrowCapacity g x r = x := by cases g <;> simp [teGrowCapacity, hxr]
      exact ⟨0, Nat.zero_le _, by rw [teDoublingLoop, if_neg hxr, hg']⟩

/-- Capacity over whole runs: in every reachable editor the capacity is the default doubled `k`
times and holds the buffer, and past the default it is below twice the largest buffer the run
has held (the request of every growing `te_ensure_capacity` is the count its call leaves). A
request that fits returns at once; one up to `2^62` runs the `size_t` loop, which stops on the
model's capacity after fewer rounds than any `j` with `required ≤ capacity 2^j`. -/
theorem teReachable_capacity {lctx : LlamaContext} {w : TeWorld} {peak : Nat}
    (hr : TeReachablePeak M lctx w peak) :
    (∃ k, w.ctx.capacity = teDefaultCapacity * 2 ^ k) ∧ w.ctx.nTokens ≤ w.ctx.capacity ∧
    (w.ctx.capacity = teDefaultCapacity ∨ w.ctx.capacity < 2 * peak) ∧
    (∀ r ≤ w.ctx.capacity, teEnsureCapacity w.ctx r = (.ok, w.ctx)) ∧
    ∀ r, w.ctx.capacity < r → r ≤ 2 ^ 62 → ∀ j, r ≤ w.ctx.capacity * 2 ^ j →
      ∃ k, k < j ∧ teDoublingLoop j (w.ctx.capacity * 2 % 2 ^ 64) r =
        some (teGrowCapacity r (w.ctx.capacity * 2) r, k) := by
  have hc : w.ctx.CapacityOk peak := by
    induction hr with
    | init h =>
      have hi := teInit_initial h
      exact ⟨hi.wf, ⟨0, by rw [hi.capacity_eq]; rfl⟩, .inl hi.capacity_eq, by rw [hi.nTokens_eq]⟩
    | step _ _ h ih => exact ih.step (teStep_reshaped M ih.1 h)
  obtain ⟨hw, hk, hb, -⟩ := hc
  refine ⟨hk, hw.nTokens_le, hb, fun r hr => teEnsureCapacity_of_le hr, fun r hlt hr j hj => ?_⟩
  have hpos := hw.capacity_pos
  obtain ⟨f, rfl⟩ : ∃ f, j = f + 1 :=
    Nat.exists_eq_succ_of_ne_zero (by rintro rfl; simp at hj; omega)
  have hm : w.ctx.capacity * 2 % 2 ^ 64 = w.ctx.capacity * 2 := Nat.mod_eq_of_lt (by omega)
  have hg : r ≤ w.ctx.capacity * 2 * 2 ^ r :=
    le_trans (Nat.lt_two_pow r).le (Nat.le_mul_of_pos_left _ (by omega))
  obtain ⟨k, hk, he⟩ := teDoublingLoop_eq hr f (x := w.ctx.capacity * 2) (by omega) (by omega)
    (by rwa [pow_succ', ← Nat.mul_assoc] at hj) hg
  exact ⟨k, by omega, by rw [hm]; exact he⟩

/-- One insertion of 4097 tokens into a fresh editor: the capacity is a doubling of 4096 that
holds the buffer and stays below twice the peak, so it has doubled exactly once. -/
theorem teReachable_capacity_doubled :
    ∃ w, TeReachablePeak default ⟨[], []⟩ w 4097 ∧ w.ctx.nTokens = 4097 ∧
      w.ctx.capacity = 2 * teDefaultCapacity := by
  obtain ⟨ctx0, h0, ha0⟩ := teInit_allocOk ⟨[], []⟩ (List.not_mem_nil true)
  have hi := teInit_initial h0
  obtain ⟨c, h1, hn⟩ : ∃ c, teInsertTokens default ctx0 0 0 (some (List.replicate 4097 0)) 4097 =
      some (.ok, c) ∧ c.nTokens = 4097 := by
    obtain ⟨c1, h1, -, hn1, -⟩ := teInsertTokens_spec default 0 0 (List.replicate 4097 0) 4097
      ⟨hi.wf, hi.writable, ha0⟩ (by decide) (by simp [hi.nTokens_eq]) (by decide)
      (List.length_replicate _ _).ge
    exact ⟨_, h1, by rw [teRecordEdit_nTokens, hn1, hi.nTokens_eq]⟩
  have hr : TeReachablePeak default ⟨[], []⟩ ⟨c, []⟩ (max 0 c.nTokens) :=
    .step (.insertTokens 0 0 (some (List.replicate 4097 0)) 4097) (.init h0)
      (by simp only [teStep, h1, Option.map_some'])
  rw [hn, Nat.zero_max] at hr
  obtain ⟨⟨k, hk⟩, hle, hb, -⟩ := teReachable_capacity default hr
  dsimp only at hk hle hb
  rw [hn] at hle
  refine ⟨_, hr, hn, ?_⟩
  simp only [teDefaultCapacity] at hk hb ⊢
  rcases k with _ | _ | k
  · omega
  · omega
  · have := Nat.one_le_two_pow (n := k)
    rw [pow_succ, pow_succ] at hk
    omega

end TokenEditor
