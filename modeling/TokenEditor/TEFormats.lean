import TokenEditor.TEBufferLaws
import TokenEditor.TECoherence

/-! The binary format. A word is four little-endian bytes, so decoding the bytes of a token list
gives it back, and re-encoding the words decoded from a buffer gives the buffer's bytes back.
Over reachable editors, export then import reproduces the buffer, and import then export
reproduces the imported bytes. -/
namespace TokenEditor

/-- The bytes of a token array in memory. -/
def teTokenBytes (ts : List Int32) : List UInt8 := ts.flatMap (u32Bytes ·.toNat)

@[simp] theorem teTokenBytes_nil : teTokenBytes [] = [] := rfl

@[simp] theorem teTokenBytes_cons (t : Int32) (ts : List Int32) :
    teTokenBytes (t :: ts) = u32Bytes t.toNat ++ teTokenBytes ts := rfl

theorem length_teTokenBytes (ts : List Int32) : (teTokenBytes ts).length = 4 * ts.length := by
  induction ts with
  | nil => rfl
  | cons t ts ih => rw [teTokenBytes_cons, List.length_append, length_u32Bytes, ih,
      List.length_cons]; ring

theorem foldr_bytes_lt (l : List UInt8) :
    l.foldr (fun byte acc => byte.toNat + 256 * acc) 0 < 256 ^ l.length := by
  induction l with
  | nil => exact Nat.one_pos
  | cons a l ih =>
    have ha : a.toNat < 256 := a.toNat_lt_size
    rw [List.foldr_cons, List.length_cons, pow_succ]
    omega

theorem u32OfBytes_lt (b : List UInt8) : u32OfBytes b < 2 ^ 32 :=
  calc u32OfBytes b < 256 ^ (b.take 4).length := foldr_bytes_lt _
    _ ≤ 256 ^ 4 := Nat.pow_le_pow_right (by decide) (by simp)
    _ = 2 ^ 32 := by norm_num

/-- Four bytes read as a word and written back are the same four bytes. -/
theorem u32Bytes_u32OfBytes {l : List UInt8} (h : l.length = 4) : u32Bytes (u32OfBytes l) = l := by
  match l, h with
  | [a, b, c, d], _ =>
    have ha : a.toNat < 256 := a.toNat_lt_size
    have hb : b.toNat < 256 := b.toNat_lt_size
    have hc : c.toNat < 256 := c.toNat_lt_size
    have hd : d.toNat < 256 := d.toNat_lt_size
    have hm (n : Nat) : (UInt8.ofNat (n % 256)).toNat = n % 256 :=
      UInt8.toNat_ofNat_of_lt (Nat.mod_lt n (by decide))
    simp only [u32Bytes, u32OfBytes, List.range_succ, List.range_zero, List.nil_append,
      List.map_append, List.map_cons, List.map_nil, List.cons_append, List.take_succ_cons,
      List.take_zero, List.foldr_cons, List.foldr_nil, List.cons.injEq]
    refine ⟨?_, ?_, ?_, ?_, trivial⟩ <;> apply UInt8.toNat.inj <;> rw [hm] <;> norm_num <;> omega

/-- The header of a buffer of at least four bytes, written back, is its first four bytes. -/
theorem u32Bytes_u32OfBytes_take {b : List UInt8} (h : 4 ≤ b.length) :
    u32Bytes (u32OfBytes b) = b.take 4 := by
  rw [show u32OfBytes b = u32OfBytes (b.take 4) by simp only [u32OfBytes, List.take_take, min_self]]
  exact u32Bytes_u32OfBytes (by simp only [List.length_take]; omega)

theorem teDecodeTokens_succ (bytes : List UInt8) (k : Nat) :
    teDecodeTokens bytes (k + 1) =
      BitVec.ofNat 32 (u32OfBytes bytes) :: teDecodeTokens (bytes.drop 4) k := by
  simp only [teDecodeTokens, List.range_succ_eq_map, List.map_cons, List.map_map, Nat.mul_zero,
    List.drop_zero, List.cons.injEq, true_and]
  refine List.map_congr_left fun i _ => ?_
  simp only [Function.comp, List.drop_drop]
  congr 3
  omega

/-- Decoding the bytes of a token list gives the list back. -/
theorem teDecodeTokens_teTokenBytes (ts : List Int32) :
    teDecodeTokens (teTokenBytes ts) ts.length = ts := by
  induction ts with
  | nil => rfl
  | cons t ts ih =>
    rw [List.length_cons, teDecodeTokens_succ, teTokenBytes_cons, u32OfBytes_u32Bytes_append,
      List.drop_left' (length_u32Bytes _), ih]
    congr 1
    exact BitVec.eq_of_toNat_eq (by rw [BitVec.toNat_ofNat, Nat.mod_mod, Nat.mod_eq_of_lt t.isLt])

/-- Re-encoding the words decoded from a buffer gives its first `4 k` bytes. -/
theorem teTokenBytes_teDecodeTokens (k : Nat) : ∀ {bytes : List UInt8}, 4 * k ≤ bytes.length →
    teTokenBytes (teDecodeTokens bytes k) = bytes.take (4 * k) := by
  induction k with
  | zero => intro bytes _; rfl
  | succ k ih =>
    intro bytes h
    rw [teDecodeTokens_succ, teTokenBytes_cons, ih (by simp only [List.length_drop]; omega),
      BitVec.toNat_ofNat, Nat.mod_eq_of_lt (u32OfBytes_lt _), u32Bytes_u32OfBytes_take (by omega),
      show 4 * (k + 1) = 4 + 4 * k by ring, List.take_add]

variable (M : LlamaModel)

section Import
variable {ctx : TeContext} (seqId : Int32) {b : List UInt8}

theorem teClear_allocOk {e : TeError} {c : TeContext} (hw : ctx.Wf) (ha : ctx.AllocOk)
    (h : teClear ctx seqId = some (e, c)) : c.AllocOk := by
  cases hro : ctx.readonly
  · rw [teClear_spec seqId hw hro, Option.some.injEq, Prod.mk.injEq] at h
    rw [← h.2]
    split
    · exact allocOk_teRecordEdit _ _ _ _ ha
    · exact ha
  · rw [teClear_of_readonly hro, Option.some.injEq, Prod.mk.injEq] at h
    rw [← h.2]; exact ha

/-- With its allocations succeeding, `te_import_binary` of a buffer holding its header's count
of words loads exactly those words, each slot's metadata naming its token. -/
theorem teImportBinary_ok (hw : ctx.Wf) (ha : ctx.AllocOk) (hlen : 4 + u32OfBytes b * 4 ≤ b.length) :
    ∃ c, teImportBinary M ctx seqId b = some (.ok, c) ∧ c.Wf ∧ c.nTokens = u32OfBytes b ∧
      c.view = teDecodeTokens ((b.drop 4).take (u32OfBytes b * 4)) (u32OfBytes b) ∧
      ∀ i < c.nTokens, c.tokenInfo[i]?.map (·.id) = c.view[i]? := by
  obtain ⟨e0, c0, hc⟩ : ∃ e0 c0, teClear ctx seqId = some (e0, c0) := by
    cases hro : ctx.readonly
    · exact ⟨_, _, teClear_spec seqId hw hro⟩
    · exact ⟨_, _, teClear_of_readonly hro seqId⟩
  have hw0 := (teClear_reshaped hw hc).wf
  obtain ⟨hok, -⟩ : (teEnsureCapacity c0 (u32OfBytes b)).1 = .ok ∧ _ :=
    teEnsureCapacity_of_allocOk (teClear_allocOk seqId hw ha hc)
  have hw1 : (teEnsureCapacity c0 (u32OfBytes b)).2.Wf := hw0.teEnsureCapacity
  have hcap := teEnsureCapacity_ok hw0 hok
  generalize hE : teEnsureCapacity c0 (u32OfBytes b) = E at hok hw1 hcap
  set loaded := teDecodeTokens ((b.drop 4).take (u32OfBytes b * 4)) (u32OfBytes b) with hl
  have hL : loaded.length = u32OfBytes b := by simp only [hl, teDecodeTokens, List.length_map, List.length_range]
  have := hw1.capacity_le
  have := hw1.info_length
  obtain ⟨t, ht⟩ := Option.isSome_iff_exists.mp
    (blockWrite_isSome.mpr (by omega) : (blockWrite E.2.tokens 0 loaded).isSome)
  obtain ⟨i, hi⟩ := Option.isSome_iff_exists.mp (blockWrite_isSome.mpr
    (by rw [List.length_mapIdx]; omega) : (blockWrite E.2.tokenInfo 0 (loaded.mapIdx fun i t =>
      { id := t, pos := toPos i, seqId := if 0 ≤ seqId.toInt then seqId else 0
        flags := teGetTokenFlags M t, hasLogit := false })).isSome)
  have hv : t.take (u32OfBytes b) = loaded := by rw [← take_blockWrite_zero ht, hL]
  refine ⟨{ E.2 with tokens := t, tokenInfo := i, nTokens := u32OfBytes b, kvCacheDirty := true
                     logitsValid := false }, ?_, ⟨hcap, by rw [length_blockWrite ht]; exact hw1.2,
      by rw [length_blockWrite hi]; exact hw1.3, hw1.4⟩, rfl, hv, fun j hj => ?_⟩
  · unfold teImportBinary
    rw [if_neg (by omega), if_neg (by omega)]
    obtain ⟨e, E2⟩ := E
    cases hok
    simp only [hc, hE, blockRead_eq (by omega : 4 + u32OfBytes b * 4 ≤ b.length), ht, hi,
      Option.bind_eq_bind, Option.some_bind, ne_eq, not_true_eq_false, if_false]
  · replace hj : j < u32OfBytes b := hj
    simp only [TeContext.view, List.getElem?_take, getElem?_blockWrite ht,
      getElem?_blockWrite hi, List.length_mapIdx, hL, Nat.zero_le, true_and, Nat.zero_add,
      Nat.sub_zero, List.getElem?_mapIdx]
    simp only [if_pos hj]
    cases loaded[j]? <;> rfl

/-- `te_import_binary` succeeds only on a buffer holding its header and the words it counts. -/
theorem teImportBinary_length {c : TeContext} (h : teImportBinary M ctx seqId b = some (.ok, c)) :
    4 + u32OfBytes b * 4 ≤ b.length := by
  by_contra hlt
  unfold teImportBinary at h
  by_cases h4 : b.length < 4
  · rw [if_pos h4] at h; cases h
  · rw [if_neg h4, if_pos (by omega)] at h; cases h

end Import

/-- `te_export_binary` of a well-formed editor with fewer than `2^32` tokens into a buffer with
room: the header and the words, the rest of the buffer kept. -/
theorem teExportBinary_ok {ctx : TeContext} (hw : ctx.Wf) (hn : ctx.nTokens < 2 ^ 32)
    {buf : List UInt8} (hb : 4 + 4 * ctx.nTokens ≤ buf.length) :
    ∃ buf', teExportBinary ctx buf = some (.ok, buf', 4 + ctx.nTokens * 4) ∧
      buf'.take (4 + 4 * ctx.nTokens) = u32Bytes ctx.nTokens ++ teTokenBytes ctx.view ∧
      buf'.drop (4 + 4 * ctx.nTokens) = buf.drop (4 + 4 * ctx.nTokens) := by
  have hlen : (u32Bytes (ctx.nTokens % 2 ^ 32) ++ teTokenBytes ctx.view).length = 4 + 4 * ctx.nTokens := by
    rw [List.length_append, length_u32Bytes, length_teTokenBytes, hw.length_view]
  obtain ⟨buf', hw'⟩ := Option.isSome_iff_exists.mp
    (blockWrite_isSome.mpr (by rw [hlen]; omega) :
      (blockWrite buf 0 (u32Bytes (ctx.nTokens % 2 ^ 32) ++ teTokenBytes ctx.view)).isSome)
  refine ⟨buf', ?_, ?_, ?_⟩
  · unfold teExportBinary
    rw [if_neg (by omega), blockRead_view hw]
    simp only [Option.bind_eq_bind, Option.some_bind]
    rw [show ctx.view.flatMap (u32Bytes ·.toNat) = teTokenBytes ctx.view from rfl, hw']
    rfl
  · rw [← hlen, take_blockWrite_zero hw', Nat.mod_eq_of_lt hn]
  · rw [blockWrite_eq (by rw [hlen]; omega), Option.some.injEq] at hw'
    rw [← hw', List.take_zero, List.nil_append, ← hlen, List.drop_left' rfl, Nat.zero_add]

/-- The binary format over reachable editors. Export of an editor with fewer than `2^32` tokens
into a buffer with room writes the count and the words and keeps the rest of the buffer, and
importing those bytes into any reachable editor whose allocations succeed loads the same tokens,
each slot's metadata naming its token. Conversely, with allocations succeeding, import of a
buffer succeeds exactly when it holds a header and the words it counts, and export then writes
those bytes back. -/
theorem teReachable_binaryRoundTrip {lctx : LlamaContext} {w : TeWorld} (hr : TeReachable M lctx w) :
    (w.ctx.nTokens < 2 ^ 32 → ∀ buf : List UInt8, 4 + 4 * w.ctx.nTokens ≤ buf.length →
      ∃ buf', teExportBinary w.ctx buf = some (.ok, buf', 4 + w.ctx.nTokens * 4) ∧
        buf'.take (4 + 4 * w.ctx.nTokens) = u32Bytes w.ctx.nTokens ++ teTokenBytes w.ctx.view ∧
        buf'.drop (4 + 4 * w.ctx.nTokens) = buf.drop (4 + 4 * w.ctx.nTokens) ∧
        ∀ (lctx' : LlamaContext) (w' : TeWorld), TeReachable M lctx' w' → w'.ctx.AllocOk →
          ∀ seqId, ∃ c, teImportBinary M w'.ctx seqId (buf'.take (4 + 4 * w.ctx.nTokens)) =
            some (.ok, c) ∧ c.view = w.ctx.view ∧
            ∀ i < c.nTokens, c.tokenInfo[i]?.map (·.id) = c.view[i]?) ∧
    (w.ctx.AllocOk → ∀ (seqId : Int32) (b : List UInt8),
      ((∃ c, teImportBinary M w.ctx seqId b = some (.ok, c)) ↔
        4 ≤ b.length ∧ 4 + 4 * u32OfBytes b ≤ b.length) ∧
      ∀ c, teImportBinary M w.ctx seqId b = some (.ok, c) →
        ∀ out : List UInt8, 4 + 4 * u32OfBytes b ≤ out.length →
        ∃ out', teExportBinary c out = some (.ok, out', 4 + u32OfBytes b * 4) ∧
          out'.take (4 + 4 * u32OfBytes b) = b.take (4 + 4 * u32OfBytes b)) := by
  have hw := hr.wf M
  refine ⟨fun hn buf hb => ?_, fun ha seqId b => ⟨⟨fun ⟨c, h⟩ => ?_, fun ⟨_, hb⟩ => ?_⟩,
    fun c h out hout => ?_⟩⟩
  · obtain ⟨buf', he, ht, hd⟩ := teExportBinary_ok hw hn hb
    refine ⟨buf', he, ht, hd, fun lctx' w' hr' ha' seqId => ?_⟩
    have hn' : u32OfBytes (buf'.take (4 + 4 * w.ctx.nTokens)) = w.ctx.nTokens := by
      rw [ht, u32OfBytes_u32Bytes_append, Nat.mod_eq_of_lt hn]
    have hlen : (teTokenBytes w.ctx.view).length = w.ctx.nTokens * 4 := by
      rw [length_teTokenBytes, hw.length_view, Nat.mul_comm]
    obtain ⟨c, hi, -, -, hv, hid⟩ := teImportBinary_ok M seqId (hr'.wf M) ha'
      (by rw [hn', ht, List.length_append, length_u32Bytes, hlen])
    refine ⟨c, hi, ?_, hid⟩
    rw [hv, hn', ht, List.drop_left' (length_u32Bytes _), List.take_of_length_le hlen.le,
      ← hw.length_view, teDecodeTokens_teTokenBytes]
  · have := teImportBinary_length M seqId h
    omega
  · obtain ⟨c, h, -⟩ := teImportBinary_ok M seqId (b := b) hw ha (by omega)
    exact ⟨c, h⟩
  · have hb := teImportBinary_length M seqId h
    obtain ⟨c', h', hwc, hn, hv, -⟩ := teImportBinary_ok M seqId hw ha hb
    obtain rfl : c' = c := congrArg Prod.snd (Option.some.inj (h'.symm.trans h))
    have hout' : 4 + 4 * c'.nTokens ≤ out.length := by rw [hn]; exact hout
    obtain ⟨out', he, ht, -⟩ := teExportBinary_ok hwc (hn ▸ u32OfBytes_lt b) hout'
    rw [hn] at he ht
    refine ⟨out', he, ?_⟩
    rw [ht, hv, teTokenBytes_teDecodeTokens _ (by simp only [List.length_take, List.length_drop]; omega),
      List.take_take, min_eq_left (by omega), u32Bytes_u32OfBytes_take (by omega), Nat.mul_comm,
      ← List.take_add]

theorem teReachable_binaryRoundTrip_init :
    ∃ w, TeReachable default ⟨[], []⟩ w ∧ w.ctx.AllocOk ∧
      ∃ c, teImportBinary default w.ctx 0 [1, 0, 0, 0, 7, 0, 0, 0] = some (.ok, c) := by
  obtain ⟨ctx0, h0, ha⟩ := teInit_allocOk ⟨[], []⟩ (List.not_mem_nil true)
  have hr : TeReachable default ⟨[], []⟩ ⟨ctx0, []⟩ := .init h0
  exact ⟨_, hr, ha, ((teReachable_binaryRoundTrip default hr).2 ha 0 _).1.mpr ⟨by decide, by decide⟩⟩

end TokenEditor
