import TokenEditor.TEShape
import TokenEditor.TEErrors
import TokenEditor.TEQuery

/-! The buffer laws over reachable editors. Insertion is list insertion on a writable editor;
the range calls clamp `end` through a `size_t` cast, so a negative end reaches to `n_tokens`;
and the metadata of shifted slots is moved with them, keeping the position it was written with. -/
namespace TokenEditor

variable (M : LlamaModel)

section Insert
variable {ctx : TeContext} (pos seqId : Int32) (ts : List Int32)

/-- A writable editor refuses a position outside `[0, n_tokens]` and changes nothing. -/
theorem teInsertTokens_of_invalid (hro : ctx.readonly = false) (n : Nat)
    (hp : pos.toInt < 0 ∨ (ctx.nTokens : Int) < pos.toInt) :
    teInsertTokens M ctx pos seqId (some ts) n = some (.errorInvalidPosition, ctx) := by
  have : pos.toInt < 0 ∨ ctx.nTokens < toSizeT pos.toInt := by
    rcases hp with hp | hp
    · exact .inl hp
    · exact .inr (by rw [toSizeT_of_nonneg (by omega)]; omega)
  unfold teInsertTokens
  rw [if_neg (by simp [hro]), if_pos this]

/-- Insertion into a ready editor, with the log entry folded in: the editor stays ready, the
payload and its fresh metadata sit at `pos`, and the slots behind it carry the old tokens with
their old metadata. -/
theorem teInsertTokens_ready (hr : ctx.Ready) (hp : 0 ≤ pos.toInt)
    (hpn : pos.toInt.toNat ≤ ctx.nTokens) (hts : ts ≠ []) :
    ∃ c, teInsertTokens M ctx pos seqId (some ts) ts.length = some (.ok, c) ∧ c.Ready ∧
      c.nTokens = ctx.nTokens + ts.length ∧
      c.view = ctx.view.take pos.toInt.toNat ++ ts ++ ctx.view.drop pos.toInt.toNat ∧
      c.tokenInfo.take (ctx.nTokens + ts.length) = ctx.tokenInfo.take pos.toInt.toNat ++
        teNewInfos M pos seqId ts ++ (ctx.tokenInfo.take ctx.nTokens).drop pos.toInt.toNat := by
  obtain ⟨c, h, he, hn, -, hv, hi⟩ := teInsertTokens_spec M pos seqId ts ts.length hr hp hpn
    (List.length_pos.mpr hts) le_rfl
  rw [List.take_length] at h hv hi
  exact ⟨_, h, (he.ready hr).teRecordEdit _ _ _ _, by rw [teRecordEdit_nTokens, hn],
    by rw [teRecordEdit_view, hv], by rw [teRecordEdit_tokenInfo, hi]⟩

end Insert

/-- Insertion over whole runs: on every reachable editor whose allocations succeed, inserting a
non-empty list is refused on a read-only editor; on a writable one it is list insertion at any
position in `[0, n_tokens]`, leaving the buffer within the capacity, and any other position is
refused with the editor unchanged. -/
theorem teReachable_insertTokens {lctx : LlamaContext} {w : TeWorld} (hr : TeReachable M lctx w)
    (ha : w.ctx.AllocOk) (pos seqId : Int32) (ts : List Int32) (hts : ts ≠ []) :
    (w.ctx.readonly = true →
      teInsertTokens M w.ctx pos seqId (some ts) ts.length = some (.errorReadonly, w.ctx)) ∧
    (w.ctx.readonly = false → 0 ≤ pos.toInt → pos.toInt ≤ w.ctx.nTokens →
      ∃ c, teInsertTokens M w.ctx pos seqId (some ts) ts.length = some (.ok, c) ∧
        c.view = w.ctx.view.take pos.toInt.toNat ++ ts ++ w.ctx.view.drop pos.toInt.toNat ∧
        c.nTokens ≤ c.capacity) ∧
    (w.ctx.readonly = false → (pos.toInt < 0 ∨ (w.ctx.nTokens : Int) < pos.toInt) →
      teInsertTokens M w.ctx pos seqId (some ts) ts.length = some (.errorInvalidPosition, w.ctx)) := by
  refine ⟨fun hro => teInsertTokens_of_readonly M hro _ _ _ _, fun hro hp hpn => ?_,
    fun hro hp => teInsertTokens_of_invalid M pos seqId ts hro _ hp⟩
  obtain ⟨c, h, hc, -, hv, -⟩ := teInsertTokens_ready M pos seqId ts ⟨hr.wf M, hro, ha⟩ hp
    (by omega) hts
  exact ⟨c, h, hv, hc.wf.nTokens_le⟩

/-- A fresh editor filled to its 4096 slots: inserting `[7]` at position 1, inside the buffer,
puts it between the first token and the rest, and the capacity grows past 4096 to hold it. -/
theorem teReachable_insertTokens_full :
    ∃ w, TeReachable default ⟨[], []⟩ w ∧ w.ctx.AllocOk ∧ w.ctx.readonly = false ∧
      w.ctx.view = List.replicate 4096 0 ∧ w.ctx.capacity = 4096 ∧
      ∃ c, teInsertTokens default w.ctx 1 0 (some [7]) 1 = some (.ok, c) ∧
        c.view = 0 :: 7 :: List.replicate 4095 0 ∧ 4096 < c.capacity := by
  obtain ⟨ctx0, h0, ha0⟩ := teInit_allocOk ⟨[], []⟩ (List.not_mem_nil true)
  have hi := teInit_initial h0
  have hr0 : ctx0.Ready := ⟨hi.wf, hi.writable, ha0⟩
  have hv0 : ctx0.view = [] := by rw [TeContext.view, hi.nTokens_eq, List.take_zero]
  obtain ⟨ctx1, h1, hr1, hcap, hv⟩ : ∃ c, teInsertTokens default ctx0 0 0
      (some (List.replicate 4096 0)) 4096 = some (.ok, c) ∧ c.Ready ∧ c.capacity = 4096 ∧
      c.view = List.replicate 4096 0 := by
    obtain ⟨c1, h1, he1, -, hc1, hv1, -⟩ := teInsertTokens_spec default 0 0 (List.replicate 4096 0)
      4096 hr0 (by decide) (by simp [hi.nTokens_eq]) (by decide) (List.length_replicate _ _).ge
    refine ⟨_, h1, (he1.ready hr0).teRecordEdit _ _ _ _, ?_, ?_⟩
    · rw [teRecordEdit_capacity, hc1, teEnsureCapacity_of_le (by rw [hi.nTokens_eq, hi.capacity_eq]; rfl),
        hi.capacity_eq]; rfl
    · rw [teRecordEdit_view, hv1, hv0, List.take_replicate, Nat.min_self, List.take_nil,
        List.drop_nil, List.nil_append, List.append_nil]
  have r1 : TeReachable default ⟨[], []⟩ ⟨ctx1, []⟩ :=
    .step (.insertTokens 0 0 (some (List.replicate 4096 0)) 4096) (.init h0)
      (by simp only [teStep, h1, Option.map_some'])
  obtain ⟨c, h, hv', hle⟩ := (teReachable_insertTokens default r1 hr1.allocOk 1 0 [7]
    (List.cons_ne_nil _ _)).2.1 hr1.writable (by decide)
    (by rw [← hr1.wf.length_view, hv, List.length_replicate]; decide)
  have hvc : c.view = 0 :: 7 :: List.replicate 4095 0 := by
    rw [hv', hv, List.take_replicate, List.drop_replicate]; rfl
  have hlen : 4097 ≤ c.nTokens := by
    have := List.length_take_le c.nTokens c.tokens
    rw [← TeContext.view, hvc, List.length_cons, List.length_cons, List.length_replicate] at this
    omega
  exact ⟨_, r1, hr1.allocOk, hr1.writable, hv, hcap, c, h, hvc, by omega⟩

/-- A reachable read-only editor: inserting at 0, a position inside `[0, n_tokens]`, is refused. -/
theorem teInsertTokens_on_readonly_editor :
    ∃ w, TeReachable default ⟨[], []⟩ w ∧ w.ctx.AllocOk ∧ w.ctx.nTokens = 0 ∧
      teInsertTokens default w.ctx 0 0 (some [7]) 1 = some (.errorReadonly, w.ctx) := by
  obtain ⟨ctx0, h0, ha⟩ := teInit_allocOk ⟨[], []⟩ (List.not_mem_nil true)
  have hr : TeReachable default ⟨[], []⟩ ⟨{ ctx0 with readonly := true }, []⟩ :=
    .step (.setReadonly true) (.init h0) rfl
  exact ⟨_, hr, ha, (teInit_initial h0).nTokens_eq, teInsertTokens_of_readonly default rfl _ _ _ _⟩

/-- A fresh editor after inserting `[0, 1, 2]` and then `[9]` at 0: slot 1 holds token 0 with
the metadata written for it at position 0, so `token_info[1].pos` is 0. -/
theorem teInsertTokens_stale_pos (lctx : LlamaContext) :
    ∃ w, TeReachable M lctx w ∧ w.ctx.nTokens = 4 ∧ w.ctx.view = [9, 0, 1, 2] ∧
      (w.ctx.tokenInfo[1]?.map fun i => (i.id, i.pos)) = some (0, 0) := by
  obtain ⟨ctx0, h0, ha0⟩ := teInit_allocOk lctx (List.not_mem_nil true)
  have hi := teInit_initial h0
  have hv0 : ctx0.view = [] := by rw [TeContext.view, hi.nTokens_eq, List.take_zero]
  obtain ⟨ctx1, h1, hr1, hn1, hv1, hi1⟩ := teInsertTokens_ready M 0 0 [0, 1, 2]
    ⟨hi.wf, hi.writable, ha0⟩ (by decide) (by rw [hi.nTokens_eq]; decide) (by decide)
  rw [hi.nTokens_eq] at hn1 hi1
  obtain ⟨ctx2, h2, -, hn2, hv2, hi2⟩ := teInsertTokens_ready M 0 0 [9] hr1 (by decide)
    (by rw [hn1]; decide) (by decide)
  rw [hn1] at hn2 hi2
  simp only [List.length_cons, List.length_nil, Nat.zero_add, Nat.reduceAdd] at hn2 hi1 hi2
  have h1' : teInsertTokens M ctx0 0 0 (some [0, 1, 2]) 3 = some (.ok, ctx1) := h1
  have h2' : teInsertTokens M ctx1 0 0 (some [9]) 1 = some (.ok, ctx2) := h2
  have hr : TeReachable M lctx ⟨ctx2, []⟩ :=
    .step (.insertTokens 0 0 (some [9]) 1) (.step (.insertTokens 0 0 (some [0, 1, 2]) 3) (.init h0)
      (by simp only [teStep, h1', Option.map_some']; rfl))
      (by simp only [teStep, h2', Option.map_some'])
  have hslot : ctx2.tokenInfo[1]? = (teNewInfos M 0 0 [0, 1, 2])[0]? := by
    rw [← List.getElem?_take_of_lt (by decide : 1 < 4), hi2, hi1]
    rfl
  refine ⟨_, hr, hn2, by rw [hv2, hv1, hv0]; rfl, ?_⟩
  rw [hslot]
  rfl

section Range
variable {ctx : TeContext}

/-- `te_get_tokens` reads its range only through the clamp. -/
theorem teGetTokens_congr {r r' : TeRange} (h : teClampRange ctx r = teClampRange ctx r')
    (nOut : Nat) : teGetTokens ctx r nOut = teGetTokens ctx r' nOut := by
  unfold teGetTokens; rw [h]

/-- `te_get_tokens` of a range inside `[0, n_tokens]` with room for it copies that range. -/
theorem teGetTokens_of_le (range : TeRange) (hw : ctx.Wf) (hs : 0 ≤ range.start.toInt)
    (hse : range.start.toInt < range.stop.toInt) (hn : range.stop.toInt ≤ ctx.nTokens) {nOut : Nat}
    (hout : range.stop.toInt.toNat - range.start.toInt.toNat ≤ nOut) :
    teGetTokens ctx range nOut = some (.ok, (ctx.view.drop range.start.toInt.toNat).take
      (range.stop.toInt.toNat - range.start.toInt.toNat)) := by
  have hcount : (range.stop.toInt - range.start.toInt).toNat =
      range.stop.toInt.toNat - range.start.toInt.toNat := by omega
  have := hw.nTokens_le
  have := hw.capacity_le
  unfold teGetTokens
  simp only [teClampRange_of_le range hs (by omega) hn, hcount, not_le.mpr hse, if_false,
    not_lt.mpr hout, blockRead_eq (by omega : range.start.toInt.toNat +
      (range.stop.toInt.toNat - range.start.toInt.toNat) ≤ ctx.tokens.length), Option.map_some']
  rw [TeContext.view, List.drop_take, List.take_take, min_eq_left (by omega)]

end Range

/-- A fresh editor holding `[0, 1, 2]` and the range `{0, -1}`, which holds no position: the
`size_t` cast of the end clamps it to 3, so `te_get_tokens` copies `[0, 1, 2]` and
`te_delete_tokens` empties the buffer. -/
theorem teDeleteTokens_negative_end (lctx : LlamaContext) :
    ∃ w c, TeReachable M lctx w ∧ w.ctx.view = [0, 1, 2] ∧
      teGetTokens w.ctx ⟨0, -1, 0⟩ 3 = some (.ok, [0, 1, 2]) ∧
      teDeleteTokens w.ctx ⟨0, -1, 0⟩ = some (.ok, c) ∧ c.view = [] := by
  obtain ⟨ctx0, ctx1, h0, h1, hr1, -, hn1, hv1, -⟩ := teInsertTokens_fresh M lctx
  have hr : TeReachable M lctx ⟨ctx1, []⟩ :=
    .step (.insertTokens 0 0 (some [0, 1, 2]) 3) (.init h0) (by simp only [teStep, h1, Option.map_some'])
  have hcl : teClampRange ctx1 ⟨0, -1, 0⟩ = teClampRange ctx1 ⟨0, 3, 0⟩ := by
    simp only [teClampRange, hn1]; decide
  obtain ⟨c, hd, -, -, hv⟩ := teDeleteTokens_spec ⟨0, 3, 0⟩ hr1 (by decide) (by decide)
    (by rw [hn1]; decide)
  refine ⟨_, _, hr, hv1, ?_, (teDeleteTokens_congr hcl rfl).trans hd, ?_⟩
  · rw [teGetTokens_congr hcl, teGetTokens_of_le _ hr1.wf (by decide) (by decide) (by rw [hn1]; decide)
      (by decide), hv1]
    rfl
  · rw [teRecordEdit_view, hv, hv1]
    rfl

end TokenEditor
