import TokenEditor.TEHistory

/-! What the helpers change. `te_record_edit` touches only the edit log, and
`te_ensure_capacity` only reallocates the blocks, keeping their first `capacity` slots.
An editor is well formed when its buffer fits in its capacity and both blocks are at
least that large. -/
namespace TokenEditor

/-- The shape every editor keeps. -/
structure TeContext.Wf (ctx : TeContext) : Prop where
  nTokens_le : ctx.nTokens ≤ ctx.capacity
  capacity_le : ctx.capacity ≤ ctx.tokens.length
  info_length : ctx.tokenInfo.length = ctx.capacity
  capacity_pos : 0 < ctx.capacity

theorem TeContext.Wf.length_view {ctx : TeContext} (h : ctx.Wf) : ctx.view.length = ctx.nTokens := by
  rw [TeContext.view, List.length_take, min_eq_left (h.nTokens_le.trans h.capacity_le)]

/-- An editor the mutators' specs apply to: well formed, writable, and every allocation
from now on succeeding. -/
structure TeContext.Ready (ctx : TeContext) : Prop where
  wf : ctx.Wf
  writable : ctx.readonly = false
  allocOk : ctx.AllocOk

theorem teRecordEdit_eq (ctx : TeContext) (type : TeOpType) (source dest : TeRange)
    (tokens : List Int32) : ∃ h t r m, m <:+ ctx.mallocFails ∧
      teRecordEdit ctx type source dest tokens =
        { ctx with history := h, historyTail := t, redoStack := r, mallocFails := m } := by
  have h1 := List.tail_suffix ctx.mallocFails
  have h2 := (List.tail_suffix ctx.mallocFails.tail).trans h1
  simp only [teRecordEdit, teMalloc]
  split_ifs <;> first
    | exact ⟨_, _, _, _, List.suffix_refl _, rfl⟩
    | exact ⟨_, _, _, _, h1, rfl⟩
    | exact ⟨_, _, _, _, h2, rfl⟩

theorem true_mem_of_headD {l : List Bool} (h : l.headD false = true) : true ∈ l := by
  cases l with
  | nil => cases h
  | cons b l => simp only [List.headD_cons] at h; simp [h]

theorem headD_of_not_mem {l : List Bool} (h : true ∉ l) : l.headD false = false := by
  cases hd : l.headD false
  · rfl
  · exact absurd (true_mem_of_headD hd) h

section RecordEdit
variable (ctx : TeContext) (type : TeOpType) (source dest : TeRange) (tokens : List Int32)

@[simp] theorem teRecordEdit_tokens : (teRecordEdit ctx type source dest tokens).tokens = ctx.tokens := by
  obtain ⟨_, _, _, _, -, h⟩ := teRecordEdit_eq ctx type source dest tokens; rw [h]
@[simp] theorem teRecordEdit_tokenInfo :
    (teRecordEdit ctx type source dest tokens).tokenInfo = ctx.tokenInfo := by
  obtain ⟨_, _, _, _, -, h⟩ := teRecordEdit_eq ctx type source dest tokens; rw [h]
@[simp] theorem teRecordEdit_nTokens :
    (teRecordEdit ctx type source dest tokens).nTokens = ctx.nTokens := by
  obtain ⟨_, _, _, _, -, h⟩ := teRecordEdit_eq ctx type source dest tokens; rw [h]
@[simp] theorem teRecordEdit_capacity :
    (teRecordEdit ctx type source dest tokens).capacity = ctx.capacity := by
  obtain ⟨_, _, _, _, -, h⟩ := teRecordEdit_eq ctx type source dest tokens; rw [h]
@[simp] theorem teRecordEdit_readonly :
    (teRecordEdit ctx type source dest tokens).readonly = ctx.readonly := by
  obtain ⟨_, _, _, _, -, h⟩ := teRecordEdit_eq ctx type source dest tokens; rw [h]
@[simp] theorem teRecordEdit_kvCacheDirty :
    (teRecordEdit ctx type source dest tokens).kvCacheDirty = ctx.kvCacheDirty := by
  obtain ⟨_, _, _, _, -, h⟩ := teRecordEdit_eq ctx type source dest tokens; rw [h]
@[simp] theorem teRecordEdit_llamaCtx :
    (teRecordEdit ctx type source dest tokens).llamaCtx = ctx.llamaCtx := by
  obtain ⟨_, _, _, _, -, h⟩ := teRecordEdit_eq ctx type source dest tokens; rw [h]
@[simp] theorem teRecordEdit_historyLimit :
    (teRecordEdit ctx type source dest tokens).historyLimit = ctx.historyLimit := by
  obtain ⟨_, _, _, _, -, h⟩ := teRecordEdit_eq ctx type source dest tokens; rw [h]
@[simp] theorem teRecordEdit_suppressHistory :
    (teRecordEdit ctx type source dest tokens).suppressHistory = ctx.suppressHistory := by
  obtain ⟨_, _, _, _, -, h⟩ := teRecordEdit_eq ctx type source dest tokens; rw [h]

theorem teRecordEdit_view : (teRecordEdit ctx type source dest tokens).view = ctx.view := by
  simp [TeContext.view]

theorem TeContext.Wf.teRecordEdit {ctx : TeContext} (h : ctx.Wf) :
    (TokenEditor.teRecordEdit ctx type source dest tokens).Wf :=
  ⟨by simpa using h.1, by simpa using h.2, by simpa using h.3, by simpa using h.4⟩

theorem teRecordEdit_of_suppress (h : ctx.suppressHistory = true) :
    teRecordEdit ctx type source dest tokens = ctx := by
  unfold teRecordEdit; exact if_pos h

/-- `te_record_edit` reads and writes only the log and the allocator, so it commutes with
a write of the buffer. -/
theorem teRecordEdit_buffer (t : List Int32) (i : List TeTokenInfo) (n : Nat) (d l : Bool) :
    { teRecordEdit ctx type source dest tokens with
      tokens := t, tokenInfo := i, nTokens := n, kvCacheDirty := d, logitsValid := l } =
    teRecordEdit { ctx with tokens := t, tokenInfo := i, nTokens := n, kvCacheDirty := d
                            logitsValid := l } type source dest tokens := by
  simp only [teRecordEdit, teMalloc]
  split_ifs <;> rfl

theorem allocOk_teRecordEdit {ctx : TeContext} (ha : ctx.AllocOk) :
    (teRecordEdit ctx type source dest tokens).AllocOk := by
  obtain ⟨_, _, _, _, hm, h⟩ := teRecordEdit_eq ctx type source dest tokens
  rw [h]
  exact fun ht => ha (hm.subset ht)

/-- Changing only the log and the cache flags keeps an editor ready. -/
theorem TeContext.Ready.log {ctx : TeContext} (h : ctx.Ready) (hs : List TeEditOp)
    (t : Option TeEditOp) (r : List TeEditOp) (b d l : Bool) :
    ({ ctx with history := hs, historyTail := t, redoStack := r, suppressHistory := b
                kvCacheDirty := d, logitsValid := l }).Ready :=
  ⟨⟨h.1.1, h.1.2, h.1.3, h.1.4⟩, h.2, h.3⟩

theorem TeContext.Ready.teRecordEdit {ctx : TeContext} (h : ctx.Ready) :
    (TokenEditor.teRecordEdit ctx type source dest tokens).Ready :=
  ⟨h.wf.teRecordEdit type source dest tokens, by rw [teRecordEdit_readonly]; exact h.writable,
    allocOk_teRecordEdit type source dest tokens h.allocOk⟩

/-- The entry `te_record_edit` builds when its allocations succeed: it holds a copy of the
tokens when there are any. -/
def teEntry (type : TeOpType) (source dest : TeRange) (tokens : List Int32) : TeEditOp :=
  { type := type, source := source, dest := dest
    tokens := if 0 < tokens.length then some tokens else none, nTokens := tokens.length }

/-- With recording on and its (at most two) allocations succeeding, `te_record_edit` logs
its entry. -/
theorem teRecordEdit_of_heads {ctx : TeContext} (hs : ctx.suppressHistory = false)
    (h0 : ctx.mallocFails.headD false = false) (h1 : ctx.mallocFails.tail.headD false = false) :
    teRecordEdit ctx type source dest tokens =
      teLogEdit { ctx with mallocFails :=
        (if 0 < tokens.length then ctx.mallocFails.tail else ctx.mallocFails).tail }
        (teEntry type source dest tokens) := by
  by_cases hl : 0 < tokens.length <;>
    simp only [teRecordEdit, teMalloc, teEntry, hs, h0, h1, hl, if_true, if_false, Bool.not_false,
      Bool.not_true, Bool.false_eq_true]

theorem teRecordEdit_of_allocOk {ctx : TeContext} (hs : ctx.suppressHistory = false)
    (ha : ctx.AllocOk) : ∃ m, teRecordEdit ctx type source dest tokens =
      teLogEdit { ctx with mallocFails := m } (teEntry type source dest tokens) :=
  ⟨_, teRecordEdit_of_heads type source dest tokens hs (headD_of_not_mem ha)
    (headD_of_not_mem fun h => ha (List.mem_of_mem_tail h))⟩

end RecordEdit

/-- The entries `te_record_edit` keeps of a list: the `limit` most recent when a limit is set. -/
def teKeepRecent {α : Type} (limit : Nat) (l : List α) : List α :=
  if 0 < limit then l.drop (l.length - limit) else l

/-- The trimming loop drops exactly the oldest entries beyond the limit, and never the tail. -/
theorem teTrimHistory_eq (l : List TeEditOp) (tail : Option TeEditOp) {limit : Nat}
    (hl : 0 < limit) : teTrimHistory l tail l.length limit = (l.drop (l.length - limit), tail) := by
  induction l generalizing tail with
  | nil => rw [List.drop_nil]; rfl
  | cons old rest ih =>
    unfold teTrimHistory
    rw [List.length_cons]
    split
    · rename_i h
      have hr : rest ≠ [] := by
        rintro rfl
        simp only [List.length_nil] at h
        omega
      rw [if_neg hr, Nat.add_sub_cancel, ih, show rest.length + 1 - limit = rest.length - limit + 1 by omega]
      rfl
    · rw [Nat.sub_eq_zero_of_le (by omega)]
      rfl

@[simp] theorem teLogEdit_historyTail (ctx : TeContext) (op : TeEditOp) :
    (teLogEdit ctx op).historyTail = some op := by
  by_cases hl : 0 < ctx.historyLimit
  · simp only [teLogEdit, hl, if_true, teTrimHistory_eq _ _ hl]
  · simp only [teLogEdit, hl, if_false]

@[simp] theorem teLogEdit_history (ctx : TeContext) (op : TeEditOp) :
    (teLogEdit ctx op).history = teKeepRecent ctx.historyLimit
      (if ctx.historyTail.isSome then ctx.history ++ [op] else [op]) := by
  by_cases hl : 0 < ctx.historyLimit
  · simp only [teLogEdit, teKeepRecent, hl, if_true, teTrimHistory_eq _ _ hl]
  · simp only [teLogEdit, teKeepRecent, hl, if_false]

@[simp] theorem teLogEdit_redoStack (ctx : TeContext) (op : TeEditOp) :
    (teLogEdit ctx op).redoStack = [] := rfl

/-- `ctx'` is `ctx` with its blocks possibly reallocated larger: every other field, and the
first `capacity` slots of both blocks, are kept. -/
structure TeContext.Grows (ctx ctx' : TeContext) : Prop where
  frame : ctx' = { ctx with tokens := ctx'.tokens, tokenInfo := ctx'.tokenInfo
                            capacity := ctx'.capacity, mallocFails := ctx'.mallocFails }
  capacity_le : ctx.capacity ≤ ctx'.capacity
  tokens_take : ctx'.tokens.take ctx.capacity = ctx.tokens.take ctx.capacity
  info_take : ctx'.tokenInfo.take ctx.capacity = ctx.tokenInfo.take ctx.capacity

theorem TeContext.Grows.view_eq {ctx ctx' : TeContext} (hw : ctx.Wf) (h : ctx.Grows ctx') :
    ctx'.view = ctx.view := by
  have hn : ctx'.nTokens = ctx.nTokens := by rw [h.frame]
  have hk : ctx.nTokens ≤ ctx.capacity := hw.nTokens_le
  simp only [TeContext.view, hn]
  calc ctx'.tokens.take ctx.nTokens = (ctx'.tokens.take ctx.capacity).take ctx.nTokens := by
        rw [List.take_take, min_eq_left hk]
    _ = ctx.tokens.take ctx.nTokens := by rw [h.tokens_take, List.take_take, min_eq_left hk]

theorem teGrowCapacity_ge {fuel c r : Nat} (hc : 0 < c) (h : r ≤ c * 2 ^ fuel) :
    r ≤ teGrowCapacity fuel c r := by
  induction fuel generalizing c with
  | zero => simpa [teGrowCapacity] using h
  | succ fuel ih =>
    unfold teGrowCapacity
    split
    · exact ih (by omega) (h.trans_eq (by ring))
    · omega

theorem le_teGrowCapacity (fuel c r : Nat) : c ≤ teGrowCapacity fuel c r := by
  induction fuel generalizing c with
  | zero => simp [teGrowCapacity]
  | succ fuel ih =>
    unfold teGrowCapacity
    split
    · exact le_trans (by omega) (ih _)
    · exact le_rfl

/-- The capacity `te_ensure_capacity` settles on covers the request. -/
theorem le_teGrowCapacity_of_pos {c r : Nat} (hc : 0 < c) :
    r ≤ teGrowCapacity r (c * 2) r :=
  teGrowCapacity_ge (by omega) (le_trans (Nat.lt_two_pow r).le
    (by have := Nat.one_le_two_pow (n := r); nlinarith))

/-- An allocation that succeeds changes nothing but the allocator. -/
theorem teMalloc_spec {ctx : TeContext} (ha : ctx.AllocOk) :
    ∃ c, teMalloc ctx = (true, c) ∧ c = { ctx with mallocFails := c.mallocFails } ∧ c.AllocOk :=
  ⟨_, Prod.ext (teMalloc_fst_of_allocOk ha) rfl, rfl, allocOk_teMalloc ha⟩

theorem TeContext.Wf.of_frame {ctx c : TeContext} (hw : ctx.Wf)
    (h : c = { ctx with mallocFails := c.mallocFails }) : c.Wf := by
  rw [h]; exact ⟨hw.1, hw.2, hw.3, hw.4⟩

/-- What `te_ensure_capacity` can do: nothing when the request fits; a failed allocation
after which at most the token block has grown; or both blocks grown to the doubled
capacity. -/
theorem teEnsureCapacity_cases (ctx : TeContext) (required : Nat) :
    (required ≤ ctx.capacity ∧ teEnsureCapacity ctx required = (.ok, ctx)) ∨
    (true ∈ ctx.mallocFails ∧ ∃ toks m, (toks = ctx.tokens ∨
        toks = blockResize ctx.tokens (teGrowCapacity required (ctx.capacity * 2) required)) ∧
      teEnsureCapacity ctx required =
        (.errorAllocationFailed, { ctx with tokens := toks, mallocFails := m })) ∨
    (teEnsureCapacity ctx required =
      (.ok, let N := teGrowCapacity required (ctx.capacity * 2) required
            { ctx with tokens := blockResize ctx.tokens N, tokenInfo := blockResize ctx.tokenInfo N
                       capacity := N, mallocFails := ctx.mallocFails.tail.tail })) := by
  unfold teEnsureCapacity teMalloc
  dsimp only
  split_ifs with h1 h2 h3
  · exact .inl ⟨h1, rfl⟩
  · simp only [Bool.not_not] at h2
    exact .inr (.inl ⟨true_mem_of_headD h2, _, _, .inl rfl, rfl⟩)
  · simp only [Bool.not_not] at h3
    exact .inr (.inl ⟨List.mem_of_mem_tail (true_mem_of_headD h3), _, _, .inr rfl, rfl⟩)
  · exact .inr (.inr rfl)

theorem teEnsureCapacity_of_le {ctx : TeContext} {required : Nat} (h : required ≤ ctx.capacity) :
    teEnsureCapacity ctx required = (.ok, ctx) := if_pos h

theorem TeContext.Grows.refl (ctx : TeContext) : ctx.Grows ctx := ⟨rfl, le_rfl, rfl, rfl⟩

section Ensure
variable {ctx : TeContext} {required : Nat}

theorem teEnsureCapacity_grows (hw : ctx.Wf) : ctx.Grows (teEnsureCapacity ctx required).2 := by
  have hN := le_teGrowCapacity required (ctx.capacity * 2) required
  rcases teEnsureCapacity_cases ctx required with ⟨-, h⟩ | ⟨-, toks, m, htoks, h⟩ | h <;> rw [h]
  · exact .refl ctx
  · refine ⟨rfl, le_rfl, ?_, rfl⟩
    rcases htoks with rfl | rfl
    · rfl
    · exact take_blockResize hw.capacity_le (by omega)
  · exact ⟨rfl, by dsimp only; omega, take_blockResize hw.capacity_le (by omega),
      take_blockResize hw.info_length.ge (by omega)⟩

theorem TeContext.Wf.teEnsureCapacity (hw : ctx.Wf) :
    (TokenEditor.teEnsureCapacity ctx required).2.Wf := by
  have hN := le_teGrowCapacity required (ctx.capacity * 2) required
  have := hw.capacity_pos
  rcases teEnsureCapacity_cases ctx required with ⟨-, h⟩ | ⟨-, toks, m, htoks, h⟩ | h <;> rw [h]
  · exact hw
  · rcases htoks with rfl | rfl
    · exact ⟨hw.1, hw.2, hw.3, hw.4⟩
    · exact ⟨hw.1, by simp only [length_blockResize]; omega, hw.3, hw.4⟩
  · exact ⟨by dsimp only; have := hw.1; omega, by simp, by simp, by dsimp only; omega⟩

/-- A successful `te_ensure_capacity` leaves room for the request. -/
theorem teEnsureCapacity_ok (hw : ctx.Wf) (h : (teEnsureCapacity ctx required).1 = .ok) :
    required ≤ (teEnsureCapacity ctx required).2.capacity := by
  rcases teEnsureCapacity_cases ctx required with ⟨hr, h'⟩ | ⟨-, toks, m, -, h'⟩ | h' <;>
    rw [h'] at h ⊢
  · exact hr
  · cases h
  · exact le_teGrowCapacity_of_pos hw.capacity_pos

theorem teEnsureCapacity_of_allocOk (ha : ctx.AllocOk) :
    (teEnsureCapacity ctx required).1 = .ok ∧ (teEnsureCapacity ctx required).2.AllocOk := by
  rcases teEnsureCapacity_cases ctx required with ⟨-, h⟩ | ⟨hm, -⟩ | h
  · rw [h]; exact ⟨rfl, ha⟩
  · exact absurd hm ha
  · rw [h]; exact ⟨rfl, fun hm => ha (List.mem_of_mem_tail (List.mem_of_mem_tail hm))⟩

end Ensure

end TokenEditor
