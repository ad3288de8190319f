import TokenEditor.TEUndoLaw

/-! `te_replace_tokens` against delete-then-insert. The clamp only bounds `start` from below
and `end` from above: a range with `start > end` shifts the tail from `end`, and a range
starting past the buffer writes the payload at `start`, past the block when `start` is large. -/
namespace TokenEditor

/-- The shift-then-copy of `te_replace_tokens` on a reversed range `e < s`: the tail moved
from `e` to `s + |t|` puts `a[e, e + n - s)` after the payload. -/
theorem take_shift_write_rev {α : Type} {a b c t : List α} {n s e : Nat} (hes : e < s)
    (hsn : s ≤ n) (hfit : s + t.length + (n - e) ≤ a.length)
    (h1 : blockMove a (s + t.length) e (n - e) = some b) (h2 : blockWrite b s t = some c) :
    c.take (n + t.length) = a.take s ++ t ++ (a.drop e).take (n - s) := by
  apply List.ext_getElem?
  intro i
  rw [List.getElem?_take, getElem?_blockWrite h2, getElem?_blockMove h1]
  simp only [List.getElem?_append, List.length_append, List.length_take, List.getElem?_take,
    List.getElem?_drop]
  split_ifs <;> first | rfl | omega | (congr 1; omega)

variable (M : LlamaModel)

/-- `te_replace_tokens` on a reversed range `end < start ≤ n_tokens`: nothing is saved, and
the tail is shifted from `end`, so `B[e, e + n - s)` follows the payload. -/
theorem teReplaceTokens_reversed {ctx : TeContext} (range : TeRange) (buf : List Int32) (k : Nat)
    (hr : ctx.Ready) (he : 0 ≤ range.stop.toInt) (hes : range.stop.toInt < range.start.toInt)
    (hsn : range.start.toInt ≤ ctx.nTokens) (hk : 0 < k) (hb : k ≤ buf.length)
    (hfit : range.start.toInt.toNat + k + (ctx.nTokens - range.stop.toInt.toNat) ≤ ctx.capacity) :
    ∃ c, teReplaceTokens M ctx range (some buf) k = some (.ok, c) ∧
      c.view = ctx.view.take range.start.toInt.toNat ++ buf.take k ++
        (ctx.view.drop range.stop.toInt.toNat).take (ctx.nTokens - range.start.toInt.toNat) := by
  obtain ⟨hw, hro, ha⟩ := hr
  have hnt := hw.nTokens_le
  have hct := hw.capacity_le
  have hil := hw.info_length
  have hcl := teClampRange_of_le range (he.trans hes.le) he (hes.le.trans hsn)
  have hlt : ¬ range.start.toInt < range.stop.toInt := by omega
  have hsz : toSizeT range.stop.toInt < ctx.nTokens := by rw [toSizeT_of_nonneg he]; omega
  have hpl : blockRead buf 0 k = some (buf.take k) := by rw [blockRead_eq (by omega), List.drop_zero]
  have hlen : (buf.take k).length = k := by simp only [List.length_take]; omega
  have hE : teEnsureCapacity ctx (ctx.nTokens + k) = (.ok, ctx) := teEnsureCapacity_of_le (by omega)
  obtain ⟨t1, ht1⟩ := Option.isSome_iff_exists.mp (blockMove_isSome.mpr (by omega) :
    (blockMove ctx.tokens (range.start.toInt.toNat + k) range.stop.toInt.toNat
      (ctx.nTokens - range.stop.toInt.toNat)).isSome)
  obtain ⟨i1, hi1⟩ := Option.isSome_iff_exists.mp (blockMove_isSome.mpr (by omega) :
    (blockMove ctx.tokenInfo (range.start.toInt.toNat + k) range.stop.toInt.toNat
      (ctx.nTokens - range.stop.toInt.toNat)).isSome)
  obtain ⟨t2, ht2⟩ := Option.isSome_iff_exists.mp (blockWrite_isSome.mpr
    (by rw [hlen, length_blockMove ht1]; omega) :
      (blockWrite t1 range.start.toInt.toNat (buf.take k)).isSome)
  obtain ⟨i2, hi2⟩ := Option.isSome_iff_exists.mp (blockWrite_isSome.mpr
    (by rw [length_teNewInfos, hlen, length_blockMove hi1]; omega) :
      (blockWrite i1 range.start.toInt.toNat (teNewInfos M range.start range.seqId (buf.take k))).isSome)
  refine ⟨{ ctx with tokens := t2, tokenInfo := i2, nTokens := ctx.nTokens + k, kvCacheDirty := true
                     logitsValid := false }, ?_, ?_⟩
  · unfold teReplaceTokens
    rw [if_neg (by simp [hro])]
    simp only [hcl, hlt, hsz, hE, ht1, hi1, hpl, ht2, hi2, if_true, if_false, hk, hk.ne', ne_eq,
      not_false_eq_true, not_true_eq_false, true_and, Nat.lt_irrefl, Nat.sub_zero, Bool.false_eq_true,
      Option.bind_eq_bind, Option.some_bind, Option.map_some', Option.pure_def]
  · have hv := take_shift_write_rev (a := ctx.tokens) (n := ctx.nTokens)
      (s := range.start.toInt.toNat) (e := range.stop.toInt.toNat) (by omega) (by omega)
      (by rw [hlen]; omega) (by rwa [hlen]) ht2
    rw [hlen] at hv
    simp only [TeContext.view, hv, List.take_take, min_eq_left (by omega : range.start.toInt.toNat ≤
      ctx.nTokens), List.drop_take, List.take_take]
    congr 2
    rw [min_eq_left (by omega)]

/-- `te_delete_tokens` of a range that is empty after the clamp changes nothing. -/
theorem teDeleteTokens_of_empty {ctx : TeContext} {range : TeRange} (hro : ctx.readonly = false)
    (h : (teClampRange ctx range).2.toInt ≤ (teClampRange ctx range).1.toInt) :
    teDeleteTokens ctx range = some (.ok, ctx) := by
  unfold teDeleteTokens
  rw [if_neg (by simp [hro])]
  exact if_pos h

/-- A fresh editor holding `[0, 1, 2]`: replacing the reversed range `{2, 1}` by `[9]` gives
`[0, 1, 9, 1]`, while deleting `{2, 1}` (nothing) and inserting `[9]` at 2 gives `[0, 1, 9, 2]`. -/
theorem teReplaceTokens_reversed_on_fresh_editor (lctx : LlamaContext) :
    ∃ ctx0 ctx1 ctx2 ctx3 ctx4, (teInit lctx []).1 = some ctx0 ∧
      teInsertTokens M ctx0 0 0 (some [0, 1, 2]) 3 = some (.ok, ctx1) ∧
      teReplaceTokens M ctx1 ⟨2, 1, 0⟩ (some [9]) 1 = some (.ok, ctx2) ∧ ctx2.view = [0, 1, 9, 1] ∧
      teDeleteTokens ctx1 ⟨2, 1, 0⟩ = some (.ok, ctx3) ∧
      teInsertTokens M ctx3 2 0 (some [9]) 1 = some (.ok, ctx4) ∧ ctx4.view = [0, 1, 9, 2] := by
  obtain ⟨ctx0, ctx1, h0, h1, hr1, -, hn1, hv1, hc1, -⟩ := teInsertTokens_fresh M lctx
  obtain ⟨ctx2, h2, hv2⟩ := teReplaceTokens_reversed M ⟨2, 1, 0⟩ [9] 1 hr1 (by decide) (by decide)
    (by rw [hn1]; decide) (by decide) (by decide)
    (by rw [hn1, hc1]; decide)
  have hcl : teClampRange ctx1 ⟨2, 1, 0⟩ = (2, 1) :=
    teClampRange_of_le _ (by decide) (by decide) (by rw [hn1]; decide)
  have hd : teDeleteTokens ctx1 ⟨2, 1, 0⟩ = some (.ok, ctx1) :=
    teDeleteTokens_of_empty hr1.writable (by rw [hcl]; decide)
  obtain ⟨c4, h4, -, -, -, hv4, -⟩ := teInsertTokens_spec M 2 0 [9] 1 hr1 (by decide)
    (by rw [hn1]; decide) (by decide) (by decide)
  refine ⟨ctx0, ctx1, ctx2, ctx1, _, h0, h1, h2, by rw [hv2, hv1, hn1]; rfl, hd, h4, ?_⟩
  rw [teRecordEdit_view, hv4, hv1]
  rfl

/-- `te_replace_tokens` writes the payload at the clamped `start`, which only the lower clamp
bounds: on an empty range at or past the end whose payload would end past the token block,
the copy leaves the block. -/
theorem teReplaceTokens_past_block {ctx : TeContext} (range : TeRange) (buf : List Int32)
    (k : Nat) (hro : ctx.readonly = false) (he : 0 ≤ range.stop.toInt)
    (hes : range.stop.toInt ≤ range.start.toInt) (hen : range.stop.toInt ≤ ctx.nTokens)
    (hk : 0 < k) (hb : k ≤ buf.length) (hcap : ctx.nTokens + k ≤ ctx.capacity)
    (hover : ctx.tokens.length < range.start.toInt.toNat + k) :
    teReplaceTokens M ctx range (some buf) k = none := by
  have hcl := teClampRange_of_le range (he.trans hes) he hen
  have hlt : ¬ range.start.toInt < range.stop.toInt := by omega
  have hE : teEnsureCapacity ctx (ctx.nTokens + k) = (.ok, ctx) := teEnsureCapacity_of_le hcap
  have hpl : blockRead buf 0 k = some (buf.take k) := by rw [blockRead_eq (by omega), List.drop_zero]
  have hlen : (buf.take k).length = k := by simp only [List.length_take]; omega
  unfold teReplaceTokens
  rw [if_neg (by simp [hro])]
  simp only [hcl, hlt, hE, hpl, if_true, if_false, hk, hk.ne', ne_eq, not_false_eq_true,
    not_true_eq_false, true_and, Nat.lt_irrefl, Nat.sub_zero, Bool.false_eq_true,
    Option.bind_eq_bind, Option.some_bind, Option.map_some', Option.pure_def]
  by_cases hs : toSizeT range.stop.toInt < ctx.nTokens
  · have : blockMove ctx.tokens (range.start.toInt.toNat + k) range.stop.toInt.toNat
        (ctx.nTokens - range.stop.toInt.toNat) = none := by
      cases h : blockMove ctx.tokens (range.start.toInt.toNat + k) range.stop.toInt.toNat
        (ctx.nTokens - range.stop.toInt.toNat)
      · rfl
      · have := (blockMove_isSome.mp (by rw [h]; rfl)).2
        omega
    simp only [hs, if_true, this, Option.none_bind]
  · have : blockWrite ctx.tokens range.start.toInt.toNat (buf.take k) = none := by
      cases h : blockWrite ctx.tokens range.start.toInt.toNat (buf.take k)
      · rfl
      · have := blockWrite_isSome.mp (by rw [h]; rfl)
        omega
    simp only [hs, if_false, this, Option.none_bind, Option.some_bind]

/-- A fresh editor: replacing `{5000, 0}` by one token copies it to slot 5000 of a block of
4096 slots. -/
theorem teReplaceTokens_past_capacity_on_fresh_editor (lctx : LlamaContext) :
    ∃ ctx0, (teInit lctx []).1 = some ctx0 ∧
      teReplaceTokens M ctx0 ⟨5000, 0, 0⟩ (some [9]) 1 = none := by
  obtain ⟨ctx0, h0, -⟩ := teInit_allocOk lctx (List.not_mem_nil true)
  have hi := teInit_initial h0
  exact ⟨ctx0, h0, teReplaceTokens_past_block M _ _ _ hi.writable (by decide) (by decide)
    (by rw [hi.nTokens_eq]; decide) (by decide) (by decide)
    (by rw [hi.nTokens_eq, hi.capacity_eq]; decide) (by rw [hi.tokens_length]; decide)⟩

end TokenEditor
