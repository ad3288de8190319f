import TokenEditor.TESpec

/-! The buffer effect of each recorded mutator on a writable, well-formed editor whose
allocations succeed: the new buffer as a list expression of the old one, and the entry
handed to `te_record_edit`. -/
namespace TokenEditor

theorem TeContext.Grows.take_tokens {ctx ctx' : TeContext} (h : ctx.Grows ctx') {m : Nat}
    (hm : m ≤ ctx.capacity) : ctx'.tokens.take m = ctx.tokens.take m := by
  rw [← min_eq_left hm, ← List.take_take, h.tokens_take, List.take_take]

theorem TeContext.Grows.take_info {ctx ctx' : TeContext} (h : ctx.Grows ctx') {m : Nat}
    (hm : m ≤ ctx.capacity) : ctx'.tokenInfo.take m = ctx.tokenInfo.take m := by
  rw [← min_eq_left hm, ← List.take_take, h.info_take, List.take_take]

/-- `ctx'` is `ctx` after an edit of its buffer: only the blocks, the count, the capacity and
the allocator may differ, the cache is marked stale, and the editor is still well formed
with every allocation succeeding. -/
structure TeContext.Edited (ctx ctx' : TeContext) : Prop where
  frame : ctx' = { ctx with tokens := ctx'.tokens, tokenInfo := ctx'.tokenInfo
                            nTokens := ctx'.nTokens, capacity := ctx'.capacity
                            mallocFails := ctx'.mallocFails, kvCacheDirty := true
                            logitsValid := false }
  wf : ctx'.Wf
  allocOk : ctx.AllocOk → ctx'.AllocOk
  capacity_le : ctx.capacity ≤ ctx'.capacity

section Edited
variable {ctx c : TeContext} (h : ctx.Edited c)
include h

theorem TeContext.Edited.suppressHistory_eq : c.suppressHistory = ctx.suppressHistory := by
  rw [h.frame]
theorem TeContext.Edited.history_eq : c.history = ctx.history := by rw [h.frame]
theorem TeContext.Edited.historyTail_eq : c.historyTail = ctx.historyTail := by rw [h.frame]
theorem TeContext.Edited.redoStack_eq : c.redoStack = ctx.redoStack := by rw [h.frame]
theorem TeContext.Edited.historyLimit_eq : c.historyLimit = ctx.historyLimit := by rw [h.frame]

end Edited

theorem TeContext.Edited.ready {ctx c : TeContext} (h : ctx.Edited c) (hr : ctx.Ready) : c.Ready :=
  ⟨h.wf, by rw [h.frame]; exact hr.writable, h.allocOk hr.allocOk⟩

variable (M : LlamaModel)

@[simp] theorem length_teNewInfos (pos seqId : Int32) (tokens : List Int32) :
    (teNewInfos M pos seqId tokens).length = tokens.length := List.length_mapIdx

/-- The common body of `te_insert_tokens` and `te_replace_tokens` on `[s, e)`: grow to the
new count, shift the tail from `e` to `s + k`, copy `k` tokens and their metadata to `s`. -/
theorem teEnsureCapacity_shift_write {ctx : TeContext} {s e k : Nat} {ts : List Int32} (c : Prop)
    [Decidable c] (required : Nat) (infos : List TeTokenInfo) (hw : ctx.Wf) (ha : ctx.AllocOk)
    (hse : s ≤ e) (hen : e ≤ ctx.nTokens) (hreq : required = ctx.nTokens - (e - s) + k)
    (hts : ts.length = k) (hinfos : infos.length = k) (hc : c ↔ k ≠ e - s ∧ e < ctx.nTokens) :
    ∃ c1 t1 i1 t2 i2, teEnsureCapacity ctx required = (.ok, c1) ∧ ctx.Grows c1 ∧ c1.Wf ∧
      c1.AllocOk ∧ c1.nTokens = ctx.nTokens ∧ required ≤ c1.capacity ∧
      (if c then blockMove c1.tokens (s + k) e (ctx.nTokens - e) else pure c1.tokens) = some t1 ∧
      (if c then blockMove c1.tokenInfo (s + k) e (ctx.nTokens - e) else pure c1.tokenInfo) =
        some i1 ∧
      blockWrite t1 s ts = some t2 ∧ blockWrite i1 s infos = some i2 ∧
      c1.capacity ≤ t2.length ∧ i2.length = c1.capacity ∧
      t2.take required = ctx.view.take s ++ ts ++ ctx.view.drop e ∧
      i2.take required = ctx.tokenInfo.take s ++ infos ++ (ctx.tokenInfo.take ctx.nTokens).drop e := by
  obtain ⟨hok, ha1⟩ : (teEnsureCapacity ctx required).1 = .ok ∧ _ := teEnsureCapacity_of_allocOk ha
  have hg : ctx.Grows (teEnsureCapacity ctx required).2 := teEnsureCapacity_grows hw
  have hw1 : (teEnsureCapacity ctx required).2.Wf := hw.teEnsureCapacity
  have hcap := teEnsureCapacity_ok hw hok
  generalize hc1 : (teEnsureCapacity ctx required).2 = c1 at *
  have hn1 : c1.nTokens = ctx.nTokens := by rw [hg.frame]
  have := hw1.nTokens_le
  have := hw1.capacity_le
  have hil := hw1.info_length
  obtain ⟨t1, ht1, hlt1, ht1'⟩ := shift_eq (a := c1.tokens) hse hen (by omega) (by omega) hc
  obtain ⟨i1, hi1, hli1, hi1'⟩ := shift_eq (a := c1.tokenInfo) hse hen (by omega) (by omega) hc
  obtain ⟨t2, ht2⟩ := Option.isSome_iff_exists.mp
    (blockWrite_isSome.mpr (by omega) : (blockWrite t1 s ts).isSome)
  obtain ⟨i2, hi2⟩ := Option.isSome_iff_exists.mp
    (blockWrite_isSome.mpr (by omega) : (blockWrite i1 s infos).isSome)
  refine ⟨c1, t1, i1, t2, i2, Prod.ext hok hc1, hg, hw1, ha1, hn1, hcap, ht1, hi1, ht2, hi2,
    by rw [length_blockWrite ht2, hlt1]; omega, by rw [length_blockWrite hi2, hli1, hil], ?_, ?_⟩
  all_goals have hsn : s ≤ ctx.nTokens := hse.trans hen
  · rw [hreq, ← hts, take_shift_write (a := c1.tokens) hse hen (by omega) (by rwa [hts]) ht2,
      hg.take_tokens (hsn.trans hw.nTokens_le), hg.take_tokens hw.nTokens_le, TeContext.view,
      List.take_take, min_eq_left hsn]
  · rw [hreq, ← hinfos, take_shift_write (a := c1.tokenInfo) hse hen (by omega) (by rwa [hinfos]) hi2,
      hg.take_info (hsn.trans hw.nTokens_le), hg.take_info hw.nTokens_le]

section Insert
variable {ctx : TeContext} (pos seqId : Int32) (buf : List Int32) (k : Nat)

theorem teInsertTokens_spec (hr : ctx.Ready) (hp : 0 ≤ pos.toInt)
    (hpn : pos.toInt.toNat ≤ ctx.nTokens) (hk : 0 < k) (hb : k ≤ buf.length) :
    ∃ c, teInsertTokens M ctx pos seqId (some buf) k =
        some (.ok, teRecordEdit c .insert ⟨pos, toPos (pos.toInt.toNat + k), seqId⟩
          ⟨pos, toPos (pos.toInt.toNat + k), seqId⟩ (buf.take k)) ∧
      ctx.Edited c ∧ c.nTokens = ctx.nTokens + k ∧
      c.capacity = (teEnsureCapacity ctx (ctx.nTokens + k)).2.capacity ∧
      c.view = ctx.view.take pos.toInt.toNat ++ buf.take k ++ ctx.view.drop pos.toInt.toNat ∧
      c.tokenInfo.take (ctx.nTokens + k) = ctx.tokenInfo.take pos.toInt.toNat ++
        teNewInfos M pos seqId (buf.take k) ++ (ctx.tokenInfo.take ctx.nTokens).drop pos.toInt.toNat := by
  obtain ⟨hw, hro, ha⟩ := hr
  have hpos : ¬ (pos.toInt < 0 ∨ ctx.nTokens < toSizeT pos.toInt) := by
    rw [toSizeT_of_nonneg hp]; omega
  have hpl : blockRead buf 0 k = some (buf.take k) := by rw [blockRead_eq (by omega), List.drop_zero]
  have hlen : (buf.take k).length = k := by simp only [List.length_take]; omega
  obtain ⟨c1, t1, i1, t2, i2, hE, hg, hw1, ha1, hn1, hcap, ht1, hi1, ht2, hi2, hlt, hli, hv, hvi⟩ :=
    teEnsureCapacity_shift_write (pos.toInt.toNat < ctx.nTokens) (ctx.nTokens + k)
      (teNewInfos M pos seqId (buf.take k)) hw ha (le_refl _) hpn (by omega) hlen
      (by rw [length_teNewInfos, hlen]) (by omega)
  refine ⟨{ c1 with
      tokens := t2, tokenInfo := i2, nTokens := ctx.nTokens + k, kvCacheDirty := true
      logitsValid := false }, ?_, ⟨by rw [hg.frame], ⟨hcap, hlt, hli, hw1.capacity_pos⟩, fun _ => ha1,
      hg.capacity_le⟩, rfl, by rw [hE], hv, hvi⟩
  simp only [teInsertTokens, hro, hpos, hE, hn1, ht1, hi1, hpl, ht2, hi2, hk.ne', if_false,
    Bool.false_eq_true, ne_eq, not_true_eq_false, Option.bind_eq_bind, Option.some_bind]
end Insert

section Delete
variable {ctx : TeContext} (range : TeRange)

/-- The clamp keeps a range that already lies in `[0, n_tokens]`. -/
theorem teClampRange_of_le (hs : 0 ≤ range.start.toInt) (he : 0 ≤ range.stop.toInt)
    (hn : range.stop.toInt ≤ ctx.nTokens) : teClampRange ctx range = (range.start, range.stop) := by
  have : ¬ ctx.nTokens < toSizeT range.stop.toInt := by rw [toSizeT_of_nonneg he]; omega
  simp only [teClampRange, if_neg (not_lt.mpr hs), if_neg this]

theorem teDeleteTokens_spec (hr : ctx.Ready) (hs : 0 ≤ range.start.toInt)
    (hse : range.start.toInt < range.stop.toInt) (hn : range.stop.toInt ≤ ctx.nTokens) :
    ∃ c, teDeleteTokens ctx range = some (.ok, teRecordEdit c .delete range range
        ((ctx.view.drop range.start.toInt.toNat).take
          (range.stop.toInt.toNat - range.start.toInt.toNat))) ∧
      ctx.Edited c ∧ c.nTokens = ctx.nTokens - (range.stop.toInt.toNat - range.start.toInt.toNat) ∧
      c.view = ctx.view.take range.start.toInt.toNat ++ ctx.view.drop range.stop.toInt.toNat := by
  obtain ⟨hw, hro, ha⟩ := hr
  have hcl := teClampRange_of_le range hs (by omega) hn
  have hm : teMalloc ctx = (true, { ctx with mallocFails := ctx.mallocFails.tail }) :=
    Prod.ext (teMalloc_fst_of_allocOk ha) rfl
  have hnt := hw.nTokens_le
  have hct := hw.capacity_le
  have hil := hw.info_length
  have hsz : toSizeT range.stop.toInt < ctx.nTokens ↔
      0 ≠ range.stop.toInt.toNat - range.start.toInt.toNat ∧ range.stop.toInt.toNat < ctx.nTokens := by
    rw [toSizeT_of_nonneg (by omega)]; omega
  have hcount : (range.stop.toInt - range.start.toInt).toNat =
      range.stop.toInt.toNat - range.start.toInt.toNat := by omega
  have hsv : blockRead ctx.tokens range.start.toInt.toNat
      (range.stop.toInt.toNat - range.start.toInt.toNat) = some
        ((ctx.view.drop range.start.toInt.toNat).take
          (range.stop.toInt.toNat - range.start.toInt.toNat)) := by
    rw [blockRead_eq (by omega), TeContext.view, List.drop_take, List.take_take, min_eq_left (by omega)]
  obtain ⟨t1, ht1, hlt1, ht1'⟩ := shift_eq (a := ctx.tokens) (k := 0) (le_of_lt (by omega))
    (by omega : range.stop.toInt.toNat ≤ ctx.nTokens) (by omega) (by omega) hsz
  obtain ⟨i1, hi1, hli1, -⟩ := shift_eq (a := ctx.tokenInfo) (k := 0) (le_of_lt (by omega))
    (by omega : range.stop.toInt.toNat ≤ ctx.nTokens) (by omega) (by omega) hsz
  simp only [Nat.add_zero, Option.pure_def] at ht1 hi1 ht1'
  refine ⟨{ ctx with tokens := t1, tokenInfo := i1, mallocFails := ctx.mallocFails.tail
                     nTokens := ctx.nTokens - (range.stop.toInt.toNat - range.start.toInt.toNat)
                     kvCacheDirty := true, logitsValid := false }, ?_,
    ⟨rfl, ⟨by dsimp only; omega, by dsimp only; omega, by dsimp only; omega, hw.capacity_pos⟩,
      fun _ h => ha (List.mem_of_mem_tail h), le_rfl⟩, rfl, ?_⟩
  · simp only [teDeleteTokens, hro, hcl, hm, hsv, hcount, teRecordEdit_tokens,
      teRecordEdit_tokenInfo, teRecordEdit_nTokens, ht1, hi1, not_le.mpr hse, if_false, if_true,
      Bool.false_eq_true, Option.bind_eq_bind, Option.pure_def, Option.some_bind, teRecordEdit_buffer]
  · have hv := take_shift_write (a := ctx.tokens) (b := t1) (t := []) (n := ctx.nTokens)
      (s := range.start.toInt.toNat) (e := range.stop.toInt.toNat) (by omega) (by omega) (by omega)
      (by simpa using ht1')
      (blockWrite_nil (by omega))
    simp only [List.length_nil, Nat.add_zero, List.append_nil] at hv
    simp only [TeContext.view, hv, List.take_take, min_eq_left (by omega : range.start.toInt.toNat ≤ ctx.nTokens)]

end Delete


section Replace
variable {ctx : TeContext} (range : TeRange) (buf : List Int32) (k : Nat)

theorem teReplaceTokens_spec (hr : ctx.Ready) (hs : 0 ≤ range.start.toInt) (hse : range.start.toInt ≤ range.stop.toInt)
    (hn : range.stop.toInt ≤ ctx.nTokens) (hk : 0 < k) (hb : k ≤ buf.length) :
    ∃ c, teReplaceTokens M ctx range (some buf) k = some (.ok,
        if range.start.toInt < range.stop.toInt then
          teRecordEdit c .replace range range ((ctx.view.drop range.start.toInt.toNat).take
            (range.stop.toInt.toNat - range.start.toInt.toNat))
        else c) ∧
      ctx.Edited c ∧
      c.nTokens = ctx.nTokens - (range.stop.toInt.toNat - range.start.toInt.toNat) + k ∧
      c.view = ctx.view.take range.start.toInt.toNat ++ buf.take k ++
        ctx.view.drop range.stop.toInt.toNat := by
  obtain ⟨hw, hro, ha⟩ := hr
  have hcl := teClampRange_of_le range hs (by omega) hn
  have hpl : blockRead buf 0 k = some (buf.take k) := by rw [blockRead_eq (by omega), List.drop_zero]
  have hlen : (buf.take k).length = k := by simp only [List.length_take]; omega
  have hsz : toSizeT range.stop.toInt = range.stop.toInt.toNat := toSizeT_of_nonneg (by omega)
  by_cases hlt : range.start.toInt < range.stop.toInt
  · obtain ⟨c0, hm, hf0, ha0⟩ := teMalloc_spec ha
    have hcount : (range.stop.toInt - range.start.toInt).toNat =
        range.stop.toInt.toNat - range.start.toInt.toNat := by omega
    have hpos : 0 < range.stop.toInt.toNat - range.start.toInt.toNat := by omega
    have hn0 : c0.nTokens = ctx.nTokens := by rw [hf0]
    have ht0 : c0.tokens = ctx.tokens := by rw [hf0]
    have hv0 : c0.view = ctx.view := by rw [TeContext.view, hn0, ht0]; rfl
    have hsv : blockRead c0.tokens range.start.toInt.toNat
        (range.stop.toInt.toNat - range.start.toInt.toNat) = some
          ((ctx.view.drop range.start.toInt.toNat).take
            (range.stop.toInt.toNat - range.start.toInt.toNat)) := by
      rw [blockRead_eq (by rw [ht0]; have := hw.nTokens_le; have := hw.capacity_le; omega), ← hv0,
        TeContext.view, List.drop_take, List.take_take, min_eq_left (by omega)]
    obtain ⟨c1, t1, i1, t2, i2, hE, hg, hw1, ha1, hn1, hcap, ht1, hi1, ht2, hi2, hlt', hli, hv, -⟩ :=
      teEnsureCapacity_shift_write
        (k ≠ range.stop.toInt.toNat - range.start.toInt.toNat ∧ range.stop.toInt.toNat < c0.nTokens)
        _ (teNewInfos M range.start range.seqId (buf.take k)) (hw.of_frame hf0) ha0
        (by omega) (by omega) rfl hlen (by rw [length_teNewInfos, hlen]) Iff.rfl
    refine ⟨{ c1 with tokens := t2, tokenInfo := i2, kvCacheDirty := true, logitsValid := false
                      nTokens := ctx.nTokens - (range.stop.toInt.toNat - range.start.toInt.toNat) + k },
      ?_, ⟨?_, ⟨by rw [← hn0]; exact hcap, hlt', hli, hw1.capacity_pos⟩, fun _ => ha1,
        (show ctx.capacity = c0.capacity by rw [hf0]).trans_le hg.capacity_le⟩, rfl,
      by rw [← hv0, ← hv, hn0]; rfl⟩
    · rw [hn0] at hE
      simp only [ne_eq, hn0, Option.pure_def] at ht1 hi1
      unfold teReplaceTokens
      rw [if_neg (by simp [hro])]
      simp only [hcl, hlt, hcount, hpos, hm, hsv, hsz, hE, hn1, hn0, ht1, hi1, hpl, ht2, hi2, if_true,
        if_false, hk, ne_eq, not_true_eq_false, Option.bind_eq_bind, Option.some_bind,
        Option.map_some', Option.pure_def]
    · rw [hg.frame, hf0]
  · have heq : range.stop.toInt.toNat - range.start.toInt.toNat = 0 := by omega
    obtain ⟨c1, t1, i1, t2, i2, hE, hg, hw1, ha1, hn1, hcap, ht1, hi1, ht2, hi2, hlt', hli, hv, -⟩ :=
      teEnsureCapacity_shift_write (s := range.start.toInt.toNat) (e := range.stop.toInt.toNat)
        (k ≠ 0 ∧ range.stop.toInt.toNat < ctx.nTokens) (ctx.nTokens + k)
        (teNewInfos M range.start range.seqId (buf.take k)) hw ha
        (by omega) (by omega) (by omega) hlen (by rw [length_teNewInfos, hlen]) (by omega)
    refine ⟨{ c1 with tokens := t2, tokenInfo := i2, kvCacheDirty := true, logitsValid := false
                      nTokens := ctx.nTokens + k },
      ?_, ⟨by rw [hg.frame], ⟨hcap, hlt', hli, hw1.capacity_pos⟩, fun _ => ha1,
        hg.capacity_le⟩, by rw [heq]; rfl, hv⟩
    simp only [ne_eq, Option.pure_def] at ht1 hi1
    unfold teReplaceTokens
    rw [if_neg (by simp [hro])]
    simp only [hcl, hlt, hsz, hE, hn1, ht1, hi1, hpl, ht2, hi2, if_true, if_false, hk, ne_eq,
      Bool.false_eq_true,
      not_true_eq_false, Nat.lt_irrefl, Nat.sub_zero, Option.bind_eq_bind, Option.some_bind,
      Option.map_some', Option.pure_def]

end Replace

section SetToken
variable {ctx : TeContext} (pos seqId token : Int32)

theorem teSetToken_spec (hw : ctx.Wf) (hro : ctx.readonly = false) (hp : 0 ≤ pos.toInt)
    (hpn : pos.toInt.toNat < ctx.nTokens) :
    ∃ old c, ctx.view[pos.toInt.toNat]? = some old ∧
      teSetToken M ctx pos seqId token = some (.ok, teRecordEdit c .replace
        ⟨pos, pos + 1, seqId⟩ ⟨pos, pos + 1, seqId⟩ [old]) ∧
      ctx.Edited c ∧ c.nTokens = ctx.nTokens ∧ c.view = ctx.view.set pos.toInt.toNat token := by
  have hpos : ¬ (pos.toInt < 0 ∨ ctx.nTokens ≤ toSizeT pos.toInt) := by
    rw [toSizeT_of_nonneg hp]; omega
  have hnt := hw.nTokens_le
  have hct := hw.capacity_le
  have hil := hw.info_length
  have hold : ctx.tokens[pos.toInt.toNat]? = some (ctx.tokens.get ⟨pos.toInt.toNat, by omega⟩) :=
    List.getElem?_eq_getElem _
  have hinfo : ctx.tokenInfo[pos.toInt.toNat]? =
      some (ctx.tokenInfo.get ⟨pos.toInt.toNat, by omega⟩) := List.getElem?_eq_getElem _
  obtain ⟨t, ht⟩ := Option.isSome_iff_exists.mp
    (blockWrite_isSome.mpr (by simp only [List.length_singleton]; omega) :
      (blockWrite ctx.tokens pos.toInt.toNat [token]).isSome)
  obtain ⟨i, hi⟩ := Option.isSome_iff_exists.mp
    (blockWrite_isSome.mpr (by simp only [List.length_singleton]; omega) :
      (blockWrite ctx.tokenInfo pos.toInt.toNat [{ ctx.tokenInfo.get ⟨pos.toInt.toNat, by omega⟩ with
        id := token, flags := teGetTokenFlags M token, hasLogit := false }]).isSome)
  refine ⟨_, { ctx with tokens := t, tokenInfo := i, kvCacheDirty := true, logitsValid := false },
    by rw [TeContext.view, List.getElem?_take, if_pos hpn, hold], ?_,
    ⟨rfl, ⟨hnt, by rw [length_blockWrite ht]; exact hct, by rw [length_blockWrite hi]; exact hil,
      hw.capacity_pos⟩, id, le_rfl⟩, rfl, ?_⟩
  · unfold teSetToken
    rw [if_neg (by simp [hro]), if_neg hpos]
    simp only [hold, hinfo, teRecordEdit_tokens, teRecordEdit_tokenInfo, ht, hi, Option.bind_eq_bind,
      Option.some_bind, teRecordEdit_buffer, teRecordEdit_nTokens]
  · have ht' : t = ctx.tokens.set pos.toInt.toNat token :=
      Option.some.inj (ht.symm.trans (blockWrite_singleton _ (by omega)))
    show t.take ctx.nTokens = (ctx.tokens.take ctx.nTokens).set _ token
    rw [ht', List.set_take]

end SetToken

section Clear
variable {ctx : TeContext} (seqId : Int32)

theorem teClear_spec (hw : ctx.Wf) (hro : ctx.readonly = false) :
    teClear ctx seqId = some (.ok, if 0 < ctx.nTokens then
        teRecordEdit { ctx with nTokens := 0, kvCacheDirty := true, logitsValid := false } .delete
          ⟨0, toPos ctx.nTokens, seqId⟩ ⟨0, toPos ctx.nTokens, seqId⟩ ctx.view
      else { ctx with nTokens := 0, kvCacheDirty := true, logitsValid := false }) := by
  have hr : blockRead ctx.tokens 0 ctx.nTokens = some ctx.view := by
    rw [blockRead_eq (by have := hw.nTokens_le; have := hw.capacity_le; omega), List.drop_zero]; rfl
  unfold teClear
  rw [if_neg (by simp [hro])]
  split_ifs
  · simp only [hr, Option.bind_eq_bind, Option.pure_def, Option.some_bind, teRecordEdit_buffer,
      teRecordEdit_tokens, teRecordEdit_tokenInfo]
  · rfl

theorem teClear_edited (hw : ctx.Wf) :
    ctx.Edited { ctx with nTokens := 0, kvCacheDirty := true, logitsValid := false } :=
  ⟨rfl, ⟨Nat.zero_le _, hw.2, hw.3, hw.4⟩, id, le_rfl⟩

end Clear

/-! The mutators read a range only through its clamp. -/
section Clamp

/-- With fewer than `2^31` tokens the clamped range starts at 0 or later and ends at `n_tokens`
or earlier. -/
theorem teClampRange_bounds {ctx : TeContext} (range : TeRange) (h31 : ctx.nTokens < 2^31) :
    0 ≤ (teClampRange ctx range).1.toInt ∧ (teClampRange ctx range).2.toInt ≤ ctx.nTokens := by
  have := toInt_bounds range.stop
  unfold teClampRange
  dsimp only
  constructor
  · split_ifs
    · decide
    · omega
  · split_ifs with h
    · rw [toInt_toPos h31]
    · unfold toSizeT at h; omega

theorem teReplaceTokens_congr {ctx : TeContext} {r r' : TeRange}
    (h : teClampRange ctx r = teClampRange ctx r') (hs : r.seqId = r'.seqId)
    (tokens : Option (List Int32)) (k : Nat) :
    teReplaceTokens M ctx r tokens k = teReplaceTokens M ctx r' tokens k := by
  unfold teReplaceTokens; rw [h, hs]

/-- `te_delete_tokens` reads its range only through the clamp and its sequence. -/
theorem teDeleteTokens_congr {ctx : TeContext} {r r' : TeRange}
    (h : teClampRange ctx r = teClampRange ctx r') (hs : r.seqId = r'.seqId) : teDeleteTokens ctx r = teDeleteTokens ctx r' := by
  unfold teDeleteTokens; rw [h, hs]

end Clamp

end TokenEditor
