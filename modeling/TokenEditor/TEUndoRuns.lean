import TokenEditor.TELog
import TokenEditor.TEBufferLaws
import TokenEditor.TESnapshotRuns
import TokenEditor.RLLMComplete

/-! The undo and redo laws over runs. `te_set_token`, `te_insert_tokens`, `te_delete_tokens`,
`te_replace_tokens`, `te_replace_text` and `te_clear` each log one entry that `te_undo` inverts
when the edit changes the buffer and, for the two replacements, puts in as many tokens as it
takes out: replayed with recording off on any ready editor that holds the buffer the edit made,
the entry brings back the buffer the edit started from. The entries of insertions, deletions and
clears are also redone by `te_redo`; a replacement's entry is not, as its replay writes the old
tokens again. The history keeps the entries last and in order and `te_undo` moves them to the
redo stack in the order `te_redo` takes them back, so after `k` such edits, no more than the
history limit, `j ≤ k` calls of `te_undo` go back `j` buffers and `i ≤ j` calls of `te_redo` then
go forward `i`. `te_import_binary` is not covered: it records only the `te_clear` before the
load. -/
namespace TokenEditor

variable (M : LlamaModel)

/-- Replaying `op` for undo takes every ready editor that records nothing and holds `B'` to one
holding `B`, by an edit of its buffer only. -/
def TeEditOp.Undoes (op : TeEditOp) (B B' : List Int32) : Prop :=
  ∀ c : TeContext, c.Ready → c.suppressHistory = true → c.view = B' →
    ∃ c', teUndoReplay M c op = some c' ∧ c.Edited c' ∧ c'.view = B

/-- Replaying `op` for redo takes every ready editor that records nothing and holds `B` to one
holding `B'`, by an edit of its buffer only. -/
def TeEditOp.Redoes (op : TeEditOp) (B B' : List Int32) : Prop :=
  ∀ c : TeContext, c.Ready → c.suppressHistory = true → c.view = B →
    ∃ c', teRedoReplay M c op = some c' ∧ c.Edited c' ∧ c'.view = B'

/-- Both replays of `op` move between `B` and `B'`: undo back to `B`, redo forward to `B'`. -/
def TeEditOp.Inverts (op : TeEditOp) (B B' : List Int32) : Prop :=
  op.Undoes M B B' ∧ op.Redoes M B B'

/-- Taking `[0, s)` and dropping `[0, d)` of `B` with `[s, e)` replaced by `X`, where `d` is the
end of `X`, gives back `B` around the old tokens `[s, e)`. -/
theorem take_drop_replace {α : Type} (B X : List α) {s e d : Nat} (hse : s ≤ e) (he : e ≤ B.length)
    (hd : d = s + X.length) :
    (B.take s ++ X ++ B.drop e).take s ++ (B.drop s).take (e - s) ++
      (B.take s ++ X ++ B.drop e).drop d = B := by
  have hs : (B.take s).length = s := by rw [List.length_take]; omega
  rw [List.append_assoc (B.take s) X, List.take_left' hs, ← List.append_assoc (B.take s) X,
    List.drop_left' (by rw [List.length_append, hs, hd]), List.append_assoc,
    show B.drop e = (B.drop s).drop (e - s) by rw [List.drop_drop]; congr 1; omega,
    List.take_append_drop, List.take_append_drop]

section Entries
variable {B : List Int32}

/-- The entry of an insertion of `k ≥ 1` tokens at `p`: its undo deletes `[p, p + k)` and its
redo inserts the tokens again at `p`. -/
theorem teEntry_insert_inverts (pos seqId : Int32) (buf : List Int32) {k : Nat} (hp : 0 ≤ pos.toInt)
    (hpn : pos.toInt.toNat ≤ B.length) (hk : 0 < k) (hb : k ≤ buf.length)
    (h31 : pos.toInt.toNat + k < 2^31) :
    (teEntry .insert ⟨pos, toPos (pos.toInt.toNat + k), seqId⟩
      ⟨pos, toPos (pos.toInt.toNat + k), seqId⟩ (buf.take k)).Inverts M B
      (B.take pos.toInt.toNat ++ buf.take k ++ B.drop pos.toInt.toNat) := by
  have hstop : (toPos (pos.toInt.toNat + k)).toInt = pos.toInt.toNat + k := toInt_toPos h31
  have hX : (buf.take k).length = k := by rw [List.length_take]; omega
  constructor
  · intro c hr hs hv
    have hn : c.nTokens = B.length + k := by
      rw [← hr.wf.length_view, hv, List.length_append, List.length_append, hX, List.length_take,
        List.length_drop]
      omega
    obtain ⟨c1, hd, hE, -, hv1⟩ := teDeleteTokens_spec ⟨pos, toPos (pos.toInt.toNat + k), seqId⟩ hr hp
      (by dsimp only; rw [hstop]; omega) (by dsimp only; rw [hstop, hn]; omega)
    refine ⟨c1, ?_, hE, ?_⟩
    · rw [teRecordEdit_of_suppress _ _ _ _ _ (hE.suppressHistory_eq.trans hs)] at hd
      simp only [teUndoReplay, teEntry, hd, Option.map_some']
    · have hstop' : (toPos (pos.toInt.toNat + k)).toInt.toNat = pos.toInt.toNat + (buf.take k).length := by
        rw [hstop, hX]; omega
      rw [hv1, hv]
      dsimp only
      rw [hstop']
      have h := take_drop_replace B (buf.take k) le_rfl hpn rfl
      rwa [Nat.sub_self, List.take_zero, List.append_nil] at h
  · intro c hr hs hv
    obtain ⟨c1, hi, hE, -, -, hv1, -⟩ := teInsertTokens_spec M pos seqId (buf.take k) k hr hp
      (by rw [← hr.wf.length_view, hv]; exact hpn) hk hX.ge
    rw [teRecordEdit_of_suppress _ _ _ _ _ (hE.suppressHistory_eq.trans hs)] at hi
    refine ⟨c1, ?_, hE, ?_⟩
    · simp only [teRedoReplay, teEntry, hX, if_pos hk, hi, Option.map_some']
    · rw [hv1, hv, List.take_take, min_self]

/-- The entry of a deletion of `[s, e)`: its undo inserts the deleted tokens back at `s` and its
redo deletes `[s, e)` again. -/
theorem teEntry_delete_inverts (range : TeRange) (hs : 0 ≤ range.start.toInt)
    (hse : range.start.toInt < range.stop.toInt) (hn : range.stop.toInt ≤ B.length) :
    (teEntry .delete range range ((B.drop range.start.toInt.toNat).take
      (range.stop.toInt.toNat - range.start.toInt.toNat))).Inverts M B
      (B.take range.start.toInt.toNat ++ B.drop range.stop.toInt.toNat) := by
  set D := (B.drop range.start.toInt.toNat).take (range.stop.toInt.toNat - range.start.toInt.toNat)
    with hDdef
  constructor
  · intro c hr hsup hv
    have hD : D.length = range.stop.toInt.toNat - range.start.toInt.toNat := by
      rw [hDdef, List.length_take, List.length_drop]; omega
    have hn' : c.nTokens = B.length - (range.stop.toInt.toNat - range.start.toInt.toNat) := by
      rw [← hr.wf.length_view, hv, List.length_append, List.length_take, List.length_drop]; omega
    obtain ⟨c1, hi, hE, -, -, hv1, -⟩ := teInsertTokens_spec M range.start range.seqId _ _ hr hs
      (by rw [hn']; omega) (by rw [hD]; omega) le_rfl
    refine ⟨c1, ?_, hE, ?_⟩
    · rw [teRecordEdit_of_suppress _ _ _ _ _ (hE.suppressHistory_eq.trans hsup)] at hi
      simp only [teUndoReplay, teEntry, if_pos (show 0 < D.length by omega), hi, Option.map_some']
    · rw [hv1, hv, List.take_length]
      have h := take_drop_replace B [] (s := range.start.toInt.toNat) (by omega)
        (by omega : range.stop.toInt.toNat ≤ B.length) (Nat.add_zero _).symm
      rwa [List.append_nil] at h
  · intro c hr hsup hv
    obtain ⟨c1, hd, hE, -, hv1⟩ := teDeleteTokens_spec range hr hs hse
      (by rw [← hr.wf.length_view, hv]; exact hn)
    rw [teRecordEdit_of_suppress _ _ _ _ _ (hE.suppressHistory_eq.trans hsup)] at hd
    exact ⟨c1, by simp only [teRedoReplay, teEntry, hd, Option.map_some'], hE, hv ▸ hv1⟩

/-- The entry of a replacement of `[s, e)`, `s < e`, by as many tokens: its undo writes the old
tokens back over `[s, e)`. -/
theorem teEntry_replace_undoes (range : TeRange) (X : List Int32) (hs : 0 ≤ range.start.toInt)
    (hse : range.start.toInt < range.stop.toInt) (hn : range.stop.toInt ≤ B.length)
    (hX : X.length = range.stop.toInt.toNat - range.start.toInt.toNat) :
    (teEntry .replace range range ((B.drop range.start.toInt.toNat).take
      (range.stop.toInt.toNat - range.start.toInt.toNat))).Undoes M B
      (B.take range.start.toInt.toNat ++ X ++ B.drop range.stop.toInt.toNat) := by
  intro c hr hsup hv
  set D := (B.drop range.start.toInt.toNat).take (range.stop.toInt.toNat - range.start.toInt.toNat)
    with hDdef
  have hD : D.length = range.stop.toInt.toNat - range.start.toInt.toNat := by
    rw [hDdef, List.length_take, List.length_drop]; omega
  have hn' : c.nTokens = B.length := by
    rw [← hr.wf.length_view, hv, List.length_append, List.length_append, hX, List.length_take,
      List.length_drop]
    omega
  obtain ⟨c1, hrep, hE, -, hv1⟩ := teReplaceTokens_spec M range D D.length hr hs hse.le
    (by rw [hn']; exact hn) (by omega) le_rfl
  rw [if_pos hse, teRecordEdit_of_suppress _ _ _ _ _ (hE.suppressHistory_eq.trans hsup)] at hrep
  refine ⟨c1, ?_, hE, ?_⟩
  · simp only [teUndoReplay, teEntry, if_pos (show 0 < D.length by omega), hrep, Option.map_some']
  · rw [hv1, hv, List.take_length]
    exact take_drop_replace B X (by omega) (by omega) (by omega)

/-- The entry of `te_set_token` at `p`: a replacement of `[p, p + 1)`, whose undo writes the old
token back. -/
theorem teEntry_set_undoes (pos seqId token : Int32) {old : Int32} (hp : 0 ≤ pos.toInt)
    (hold : B[pos.toInt.toNat]? = some old) (h31 : B.length < 2^31) :
    (teEntry .replace ⟨pos, pos + 1, seqId⟩ ⟨pos, pos + 1, seqId⟩ [old]).Undoes M B
      (B.set pos.toInt.toNat token) := by
  obtain ⟨hpB, rfl⟩ := List.getElem?_eq_some_iff.mp hold
  have hstop : (pos + 1).toInt = pos.toInt + 1 := toInt_add_one (by omega)
  have h := teEntry_replace_undoes M (B := B) ⟨pos, pos + 1, seqId⟩ [token] hp
    (by dsimp only; omega) (by dsimp only; omega) (by dsimp only; rw [hstop, List.length_singleton]; omega)
  dsimp only at h
  rw [show (pos + 1).toInt.toNat = pos.toInt.toNat + 1 by omega, Nat.add_sub_cancel_left,
    List.take_one_drop_eq_of_lt_length hpB] at h
  rw [List.set_eq_take_append_cons_drop, if_pos hpB]
  simpa using h

end Entries

theorem TeContext.Edited.of_teMalloc {ctx c : TeContext} (h : (teMalloc ctx).2.Edited c) :
    ctx.Edited c :=
  ⟨h.frame, h.wf, fun ha => h.allocOk (allocOk_teMalloc ha), h.capacity_le⟩

/-- A replacement of `range` by the first `k` tokens of `buf` that the undo law covers: the
clamped range is not empty and `k` is its length, with the buffer below `2^31` tokens. -/
def TeSameLengthReplace (ctx : TeContext) (range : TeRange) (buf : List Int32) (k : Nat) : Prop :=
  (teClampRange ctx range).1.toInt < (teClampRange ctx range).2.toInt ∧
    k = ((teClampRange ctx range).2.toInt - (teClampRange ctx range).1.toInt).toNat ∧
    k ≤ buf.length ∧ ctx.nTokens < 2^31

/-- A covered replacement on a ready editor is an edit of its buffer followed by the record of an
entry over the clamped range whose undo goes back to the buffer before the call. -/
theorem teReplaceTokens_undoable {ctx : TeContext} {range : TeRange} {buf : List Int32} {k : Nat}
    (hc : TeSameLengthReplace ctx range buf k) (hr : ctx.Ready) :
    ∃ c1 r' old, teReplaceTokens M ctx range (some buf) k =
        some (.ok, teRecordEdit c1 .replace r' r' old) ∧ ctx.Edited c1 ∧
      (teEntry .replace r' r' old).Undoes M ctx.view c1.view := by
  obtain ⟨hlt, hk, hb, h31⟩ := hc
  obtain ⟨h0, hle⟩ := teClampRange_bounds range h31
  set r' : TeRange := ⟨(teClampRange ctx range).1, (teClampRange ctx range).2, range.seqId⟩
    with hr'
  have h0' : 0 ≤ r'.start.toInt := h0
  have hlt' : r'.start.toInt < r'.stop.toInt := hlt
  have hle' : r'.stop.toInt ≤ ctx.nTokens := hle
  have hk' : k = (r'.stop.toInt - r'.start.toInt).toNat := hk
  have hcl : teClampRange ctx r' = teClampRange ctx range :=
    teClampRange_of_le r' h0' (by omega) hle'
  obtain ⟨c1, hrep, hE, -, hv⟩ := teReplaceTokens_spec M r' buf k hr h0' hlt'.le hle' (by omega) hb
  rw [teReplaceTokens_congr M hcl rfl, if_pos hlt'] at hrep
  refine ⟨c1, r', _, hrep, hE, ?_⟩
  rw [hv]
  exact teEntry_replace_undoes M r' (buf.take k) h0' hlt' (hr.wf.length_view ▸ hle')
    (by rw [List.length_take]; omega)

/-- The edits the undo law covers, each on the editor `ctx` it is made on, with the buffer below
`2^31` tokens: `te_set_token` inside the buffer, `te_insert_tokens` of `k ≥ 1` tokens at a
position in `[0, n_tokens]`, `te_delete_tokens` of a range whose clamp is not empty,
`te_replace_tokens` and `te_replace_text` replacing a range whose clamp is not empty by exactly
as many tokens, and `te_clear` of a non-empty buffer. -/
def TeCall.Undoable (ctx : TeContext) : TeCall → Prop
  | .setToken pos _ _ => 0 ≤ pos.toInt ∧ pos.toInt.toNat < ctx.nTokens ∧ ctx.nTokens < 2^31
  | .insertTokens pos _ (some buf) k =>
    0 ≤ pos.toInt ∧ pos.toInt.toNat ≤ ctx.nTokens ∧ 0 < k ∧ k ≤ buf.length ∧ ctx.nTokens + k < 2^31
  | .deleteTokens range =>
    (teClampRange ctx range).1.toInt < (teClampRange ctx range).2.toInt ∧ ctx.nTokens < 2^31
  | .replaceTokens range (some buf) k => TeSameLengthReplace ctx range buf k
  | .replaceText range (some text) =>
    (teTokenize M text (text.length + 1) false).1 = .ok ∧
      TeSameLengthReplace ctx range (teTokenize M text (text.length + 1) false).2
        (teTokenize M text (text.length + 1) false).2.length
  | .clear _ => 0 < ctx.nTokens ∧ ctx.nTokens < 2^31
  | _ => False

/-- The calls whose entry is a `TE_OP_REPLACE`, which `te_redo` replays with the old tokens. -/
def TeCall.logsReplace : TeCall → Bool
  | .setToken .. | .replaceTokens .. | .replaceText .. => true
  | _ => false

/-- A covered edit of a ready editor is an edit of its buffer followed by `te_record_edit` of an
entry whose undo goes back to the buffer before the call and, unless the entry is a replacement,
whose redo comes forward to the buffer after it. -/
theorem TeCall.Undoable.records {w w' : TeWorld} {c : TeCall} (hc : c.Undoable M w.ctx)
    (hr : w.ctx.Ready) (h : teStep M w c = some w') :
    ∃ c1 type src dst toks, w'.ctx = teRecordEdit c1 type src dst toks ∧ w.ctx.Edited c1 ∧
      (teEntry type src dst toks).Undoes M w.ctx.view c1.view ∧
      (c.logsReplace = true ∨ (teEntry type src dst toks).Redoes M w.ctx.view c1.view) := by
  have hn := hr.wf.length_view
  cases c with
  | setToken pos seqId token =>
    obtain ⟨hp, hpn, h31⟩ := hc
    obtain ⟨old, c1, hold, hset, hE, -, hv⟩ :=
      teSetToken_spec M pos seqId token hr.wf hr.writable hp hpn
    simp only [teStep, hset, Option.map_some', Option.some.injEq] at h
    subst h
    exact ⟨c1, .replace, ⟨pos, pos + 1, seqId⟩, ⟨pos, pos + 1, seqId⟩, [old], rfl, hE, by
      rw [hv]; exact teEntry_set_undoes M pos seqId token hp hold (hn ▸ h31), .inl rfl⟩
  | insertTokens pos seqId tokens k =>
    rcases tokens with _ | buf
    · exact hc.elim
    obtain ⟨hp, hpn, hk, hb, h31⟩ := hc
    obtain ⟨c1, hins, hE, -, -, hv, -⟩ := teInsertTokens_spec M pos seqId buf k hr hp hpn hk hb
    simp only [teStep, hins, Option.map_some', Option.some.injEq] at h
    subst h
    have hi := teEntry_insert_inverts M pos seqId buf hp (hn ▸ hpn) hk hb (by omega)
    rw [← hv] at hi
    exact ⟨c1, .insert, ⟨pos, toPos (pos.toInt.toNat + k), seqId⟩,
      ⟨pos, toPos (pos.toInt.toNat + k), seqId⟩, buf.take k, rfl, hE, hi.1, .inr hi.2⟩
  | deleteTokens range =>
    obtain ⟨hlt, h31⟩ := hc
    obtain ⟨h0, hle⟩ := teClampRange_bounds range h31
    set r' : TeRange := ⟨(teClampRange w.ctx range).1, (teClampRange w.ctx range).2, range.seqId⟩
      with hr'
    have h0' : 0 ≤ r'.start.toInt := h0
    have hlt' : r'.start.toInt < r'.stop.toInt := hlt
    have hle' : r'.stop.toInt ≤ w.ctx.nTokens := hle
    have hcl : teClampRange w.ctx r' = teClampRange w.ctx range :=
      teClampRange_of_le r' h0' (by omega) hle'
    obtain ⟨c1, hdel, hE, -, hv⟩ := teDeleteTokens_spec r' hr h0' hlt' hle'
    rw [teDeleteTokens_congr hcl rfl] at hdel
    simp only [teStep, hdel, Option.map_some', Option.some.injEq] at h
    subst h
    have hi := teEntry_delete_inverts M r' h0' hlt' (hn ▸ hle')
    rw [← hv] at hi
    exact ⟨c1, .delete, r', r', _, rfl, hE, hi.1, .inr hi.2⟩
  | replaceTokens range tokens k =>
    rcases tokens with _ | buf
    · exact hc.elim
    obtain ⟨c1, r', old, hrep, hE, hU⟩ := teReplaceTokens_undoable M hc hr
    simp only [teStep, hrep, Option.map_some', Option.some.injEq] at h
    subst h
    exact ⟨c1, .replace, r', r', old, rfl, hE, hU, .inl rfl⟩
  | replaceText range text =>
    rcases text with _ | text
    · exact hc.elim
    obtain ⟨htok, hc⟩ := hc
    rcases htk : teTokenize M text (text.length + 1) false with ⟨err, toks⟩
    rw [htk] at htok hc
    obtain rfl : err = .ok := htok
    obtain ⟨c0, hm, hr0, -⟩ := teMalloc_ready hr
    obtain rfl : c0 = (teMalloc w.ctx).2 := (congrArg Prod.snd hm).symm
    obtain ⟨c1, r', old, hrep, hE, hU⟩ := @teReplaceTokens_undoable M
      (teMalloc w.ctx).2 range toks toks.length hc hr0
    have hrt : teReplaceText M w.ctx range (some text) = some (.ok, teRecordEdit c1 .replace r' r' old) := by
      rw [← hrep]
      unfold teReplaceText
      dsimp only
      rw [teMalloc_fst_of_allocOk hr.allocOk, htk]
      rfl
    simp only [teStep, hrt, Option.map_some', Option.some.injEq] at h
    subst h
    exact ⟨c1, .replace, r', r', old, rfl, hE.of_teMalloc, hU, .inl rfl⟩
  | clear seqId =>
    obtain ⟨hpos, h31⟩ := hc
    have hcl := teClear_spec seqId hr.wf hr.writable
    rw [if_pos hpos] at hcl
    simp only [teStep, hcl, Option.map_some', Option.some.injEq] at h
    subst h
    have hstop : (toPos w.ctx.nTokens).toInt = w.ctx.nTokens := toInt_toPos h31
    have hz : (0 : Int32).toInt = 0 := by decide
    have hi := teEntry_delete_inverts M (B := w.ctx.view) ⟨0, toPos w.ctx.nTokens, seqId⟩
      (by dsimp only; rw [hz]) (by dsimp only; rw [hstop, hz]; exact_mod_cast hpos)
      (by dsimp only; rw [hstop, hn])
    dsimp only at hi
    rw [hz, hstop, Int.toNat_zero, Int.toNat_ofNat, Nat.sub_zero, List.drop_zero,
      List.take_of_length_le hn.le, List.take_zero, List.drop_of_length_le hn.le, List.append_nil] at hi
    exact ⟨_, .delete, ⟨0, toPos w.ctx.nTokens, seqId⟩, ⟨0, toPos w.ctx.nTokens, seqId⟩, w.ctx.view,
      rfl, teClear_edited hr.wf, hi.1, .inr hi.2⟩
  | _ => exact hc.elim

/-- Entry `m` of `es` relates, by `R`, buffer `m` of `Bs` to buffer `m + 1`. -/
def TeEditsRel (R : TeEditOp → List Int32 → List Int32 → Prop) (Bs : List (List Int32))
    (es : List TeEditOp) : Prop :=
  ∀ m e B B', es[m]? = some e → Bs[m]? = some B → Bs[m + 1]? = some B' → R e B B'

theorem TeEditsRel.nil (R : TeEditOp → List Int32 → List Int32 → Prop) (Bs : List (List Int32)) :
    TeEditsRel R Bs [] :=
  fun _ _ _ _ h => by simp at h

theorem TeEditsRel.snoc {R : TeEditOp → List Int32 → List Int32 → Prop} {Bs : List (List Int32)}
    {es : List TeEditOp} {e : TeEditOp} {B' : List Int32} (h : TeEditsRel R Bs es)
    (hl : Bs.length = es.length + 1) (he : ∀ B, Bs[es.length]? = some B → R e B B') :
    TeEditsRel R (Bs ++ [B']) (es ++ [e]) := by
  intro m e1 B1 B2 h1 h2 h3
  rcases Nat.lt_or_ge m es.length with hm | hm
  · rw [List.getElem?_append_left hm] at h1
    rw [List.getElem?_append_left (by omega)] at h2 h3
    exact h m e1 B1 B2 h1 h2 h3
  · obtain rfl : m = es.length := by
      have := (List.getElem?_eq_some_iff.mp h1).1
      rw [List.length_append, List.length_singleton] at this
      omega
    rw [List.getElem?_concat_length, Option.some.injEq] at h1
    rw [List.getElem?_append_left (by omega)] at h2
    rw [← hl, List.getElem?_concat_length, Option.some.injEq] at h3
    exact h1 ▸ h3 ▸ he B1 h2

/-- A ready editor at position `p` of the edits `es` between the buffers `Bs`, oldest first: it
holds buffer `p`, its history ends with the first `p` entries, and its redo stack starts with the
others, the next one first. -/
structure TeEditPos (Bs : List (List Int32)) (es : List TeEditOp) (p : Nat) (c : TeContext) :
    Prop where
  length : Bs.length = es.length + 1
  ready : c.Ready
  inv : c.log.Inv
  view : Bs[p]? = some c.view
  history : ∃ P, c.history = P ++ es.take p
  pending : ∃ R, c.redoStack = es.drop p ++ R

/-- `te_undo` goes back one position: it replays entry `p` backwards and moves it to the redo
stack. -/
theorem TeEditPos.undo {Bs : List (List Int32)} {es : List TeEditOp} {p : Nat} {c : TeContext}
    (h : TeEditPos Bs es (p + 1) c) (hu : TeEditsRel (TeEditOp.Undoes M) Bs es) :
    ∃ c', teUndo M c = some (.ok, c') ∧ TeEditPos Bs es p c' := by
  have hp : p < es.length := by
    have := (List.getElem?_eq_some_iff.mp h.view).1
    rw [h.length] at this
    omega
  obtain ⟨P, hP⟩ := h.history
  rw [List.take_succ, List.getElem?_eq_getElem hp, Option.toList_some, ← List.append_assoc] at hP
  have hl : c.history.getLast? = some es[p] := by rw [hP, List.getLast?_concat]
  have hpB : p < Bs.length := by rw [h.length]; omega
  have hB : Bs[p]? = some Bs[p] := List.getElem?_eq_getElem hpB
  obtain ⟨c1, hrep, hE, hv⟩ := hu p _ _ _ (List.getElem?_eq_getElem hp) hB h.view _
    (h.ready.log _ _ _ true _ _) rfl rfl
  have hundo := teUndo_eq M (h.inv.1.trans hl) hl
  rw [hrep, Option.map_some'] at hundo
  obtain ⟨R, hR⟩ := h.pending
  obtain ⟨-, hc', -, hr'⟩ := teUndo_moves M h.inv.1 hP hundo
  refine ⟨_, hundo, ⟨h.length, (hE.ready (h.ready.log _ _ _ true _ _)).log _ _ _ _ _ _,
    ⟨teUndo_tailOk M h.inv.1 hundo, (teUndo_suppressHistory M hundo).trans h.inv.2⟩, hv ▸ hB,
    ⟨P, hc'⟩, ⟨R, ?_⟩⟩⟩
  rw [hr', hR, List.drop_eq_getElem_cons hp, List.cons_append]

/-- `te_redo` goes forward one position: it replays entry `p` and links it back at the end of
the history. -/
theorem TeEditPos.redo {Bs : List (List Int32)} {es : List TeEditOp} {p : Nat} {c : TeContext}
    (h : TeEditPos Bs es p c) (hrd : TeEditsRel (TeEditOp.Redoes M) Bs es) (hp : p < es.length) :
    ∃ c', teRedo M c = some (.ok, c') ∧ TeEditPos Bs es (p + 1) c' := by
  obtain ⟨R, hR⟩ := h.pending
  rw [List.drop_eq_getElem_cons hp, List.cons_append] at hR
  have hpB : p + 1 < Bs.length := by rw [h.length]; omega
  have hB : Bs[p + 1]? = some Bs[p + 1] := List.getElem?_eq_getElem hpB
  obtain ⟨c1, hrep, hE, hv⟩ := hrd p _ _ _ (List.getElem?_eq_getElem hp) h.view hB _
    (h.ready.log _ _ _ true _ _) rfl rfl
  have hredo := teRedo_eq M hR
  rw [hrep, Option.map_some'] at hredo
  obtain ⟨P, hP⟩ := h.history
  obtain ⟨-, hc', -, hr'⟩ := teRedo_moves M h.inv.1 hR hredo
  refine ⟨_, hredo, ⟨h.length, (hE.ready (h.ready.log _ _ _ true _ _)).log _ _ _ _ _ _,
    ⟨teRedo_tailOk M h.inv.1 hredo, (teRedo_suppressHistory M hredo).trans h.inv.2⟩, hv ▸ hB,
    ⟨P, ?_⟩, ⟨R, hr'⟩⟩⟩
  rw [hc', hP, List.append_assoc, List.take_succ, List.getElem?_eq_getElem hp, Option.toList_some]

/-- Trimming to the limit keeps the last entries when there are no more of them than the limit. -/
theorem teKeepRecent_append {α : Type} {limit : Nat} (P L : List α)
    (h : limit = 0 ∨ L.length ≤ limit) : ∃ P', teKeepRecent limit (P ++ L) = P' ++ L := by
  unfold teKeepRecent
  split_ifs with hl
  · exact ⟨_, List.drop_append_of_le_length (by rw [List.length_append]; omega)⟩
  · exact ⟨P, rfl⟩

/-- A covered edit at the last position, with room in the history, adds its entry and the buffer
it made, and empties the redo stack. -/
theorem TeEditPos.edit {Bs : List (List Int32)} {es : List TeEditOp} {w w' : TeWorld} {c : TeCall}
    (h : TeEditPos Bs es es.length w.ctx)
    (hlim : w.ctx.historyLimit = 0 ∨ es.length < w.ctx.historyLimit)
    (hc : c.Undoable M w.ctx) (hs : teStep M w c = some w') :
    ∃ e, TeEditPos (Bs ++ [w'.ctx.view]) (es ++ [e]) (es.length + 1) w'.ctx ∧
      e.Undoes M w.ctx.view w'.ctx.view ∧
      (c.logsReplace = true ∨ e.Redoes M w.ctx.view w'.ctx.view) ∧
      w'.ctx.historyLimit = w.ctx.historyLimit := by
  obtain ⟨c1, type, src, dst, toks, hw', hE, hU, hR⟩ := hc.records M h.ready hs
  obtain ⟨P, hP⟩ := h.history
  have hok : c1.log.TailOk := by
    show c1.historyTail = c1.history.getLast?
    rw [hE.historyTail_eq, hE.history_eq]; exact h.inv.1
  obtain ⟨hh, -, hredo⟩ := teRecordEdit_appends hok (hE.suppressHistory_eq.trans h.inv.2)
    (hE.allocOk h.ready.allocOk) type src dst toks
  obtain ⟨P', hP'⟩ := @teKeepRecent_append _ c1.historyLimit P (es ++ [teEntry type src dst toks])
    (by rw [hE.historyLimit_eq, List.length_append, List.length_singleton]; omega)
  have hv : w'.ctx.view = c1.view := by rw [hw', teRecordEdit_view]
  rw [hv]
  refine ⟨teEntry type src dst toks, ⟨?_, ?_, teStep_logInv M h.inv hs, ?_, ⟨P', ?_⟩, ⟨[], ?_⟩⟩,
    hU, hR, ?_⟩
  · rw [List.length_append, List.length_append, h.length]; rfl
  · rw [hw']; exact (hE.ready h.ready).teRecordEdit _ _ _ _
  · rw [← h.length, List.getElem?_concat_length, hv]
  · rw [hw', hh, hE.history_eq, hP, List.take_length, List.append_assoc, hP',
      List.take_of_length_le (by simp)]
  · rw [hw', hredo, List.drop_of_length_le (by simp)]; rfl
  · rw [hw', teRecordEdit_historyLimit, hE.historyLimit_eq]

theorem teRun_append (w : TeWorld) (cs ds : List TeCall) :
    teRun M w (cs ++ ds) = (teRun M w cs).bind (teRun M · ds) := by
  induction cs generalizing w with
  | nil => rfl
  | cons c cs ih =>
    rw [List.cons_append, teRun, teRun, Option.bind_assoc]
    congr 1
    funext w1
    exact ih w1

theorem teRun_concat_eq_some {w w'' : TeWorld} {cs : List TeCall} {c : TeCall} :
    teRun M w (cs ++ [c]) = some w'' ↔ ∃ w', teRun M w cs = some w' ∧ teStep M w' c = some w'' := by
  rw [teRun_append, Option.bind_eq_some]
  simp only [teRun, Option.bind_eq_some, teRun_nil, Option.some.injEq, exists_eq_right]

/-- A run of covered edits from a ready editor, with room in the history: it ends at the last
position of the edits it made, between the buffers after each prefix of the run. Each entry
undoes its edit, and redoes it too when no call of the run is `te_set_token`. -/
theorem TeEditPos.run {w : TeWorld} (h0 : w.ctx.Ready) (hi : w.ctx.log.Inv) (cs : List TeCall) :
    ∀ {w'}, (w.ctx.historyLimit = 0 ∨ cs.length ≤ w.ctx.historyLimit) → teRun M w cs = some w' →
    (∀ i (hi : i < cs.length) wi, teRun M w (cs.take i) = some wi →
      (cs.get ⟨i, hi⟩).Undoable M wi.ctx) →
    ∃ Bs es, TeEditPos Bs es es.length w'.ctx ∧ es.length = cs.length ∧
      TeEditsRel (TeEditOp.Undoes M) Bs es ∧
      ((∀ c ∈ cs, c.logsReplace = false) →
        TeEditsRel (TeEditOp.Redoes M) Bs es) ∧
      (∀ m ≤ cs.length, ∃ wm, teRun M w (cs.take m) = some wm ∧ Bs[m]? = some wm.ctx.view) ∧
      w'.ctx.historyLimit = w.ctx.historyLimit := by
  induction cs using List.reverseRecOn with
  | nil =>
    intro w' _ hrun _
    cases hrun
    refine ⟨[w.ctx.view], [], ⟨rfl, h0, hi, rfl, ⟨w.ctx.history, by simp⟩, ⟨w.ctx.redoStack, rfl⟩⟩,
      rfl, .nil _ _, fun _ => .nil _ _, fun m hm => ?_, rfl⟩
    obtain rfl := Nat.le_zero.mp hm
    exact ⟨w, rfl, rfl⟩
  | append_singleton cs c ih =>
    intro w'' hlim hrun hed
    have hlen : (cs ++ [c]).length = cs.length + 1 := by simp
    obtain ⟨w', h1, hstep⟩ := (teRun_concat_eq_some M).mp hrun
    have htake : ∀ i ≤ cs.length, (cs ++ [c]).take i = cs.take i :=
      fun i hi => List.take_append_of_le_length hi
    obtain ⟨Bs, es, hpos, hes, hU, hR, hpre, hl⟩ := ih (by omega) h1 fun i hi' wi hwi => by
      have := hed i (by omega) wi (by rwa [htake i hi'.le])
      simpa [List.getElem_append_left hi'] using this
    have hc : c.Undoable M w'.ctx := by
      have := hed cs.length (by omega) w' (by rwa [htake _ le_rfl, List.take_length])
      simpa using this
    obtain ⟨e, hpos', hUe, hRe, hl'⟩ := hpos.edit M (by rw [hl, hes]; omega) hc hstep
    have hv : ∀ B, Bs[es.length]? = some B → B = w'.ctx.view := fun B hB =>
      Option.some.inj (hB.symm.trans hpos.view)
    refine ⟨Bs ++ [w''.ctx.view], es ++ [e], ?_, ?_, hU.snoc hpos.length fun B hB => hv B hB ▸ hUe,
      fun hns => (hR fun c' hc' => hns c' (List.mem_append_left _ hc')).snoc hpos.length fun B hB =>
        hv B hB ▸ hRe.resolve_left (by simp [hns c (by simp)]), ?_, hl'.trans hl⟩
    · rw [List.length_append, List.length_singleton]; exact hpos'
    · rw [List.length_append, List.length_singleton, hes, hlen]
    · intro m hm
      rcases Nat.lt_or_ge m (cs.length + 1) with hm' | hm'
      · obtain ⟨wm, hwm, hB⟩ := hpre m (by omega)
        refine ⟨wm, by rwa [htake m (by omega)], ?_⟩
        rw [List.getElem?_append_left (by rw [hpos.length, hes]; omega), hB]
      · obtain rfl : m = (cs ++ [c]).length := by omega
        refine ⟨w'', by rwa [List.take_length], ?_⟩
        rw [hlen, ← hes, ← hpos.length, List.getElem?_concat_length]


/-- From position `p`, `j ≤ p` calls of `te_undo` go back to position `p - j`. -/
theorem TeEditPos.undos {Bs : List (List Int32)} {es : List TeEditOp}
    (hu : TeEditsRel (TeEditOp.Undoes M) Bs es) :
    ∀ j {p : Nat} {w : TeWorld}, j ≤ p → TeEditPos Bs es p w.ctx →
      ∃ wu, teRun M w (List.replicate j .undo) = some wu ∧ TeEditPos Bs es (p - j) wu.ctx
  | 0, _, w, _, h => ⟨w, rfl, h⟩
  | j + 1, p, w, hj, h => by
    obtain ⟨q, rfl⟩ : ∃ q, p = q + 1 := ⟨p - 1, by omega⟩
    obtain ⟨c', hundo, h'⟩ := h.undo M hu
    obtain ⟨wu, hwu, hpos⟩ := TeEditPos.undos hu j (w := { w with ctx := c' }) (by omega) h'
    refine ⟨wu, ?_, by rwa [Nat.add_sub_add_right]⟩
    simp only [List.replicate_succ, teRun, teStep, hundo, Option.map_some', Option.some_bind, hwu]

/-- From position `p`, `i` calls of `te_redo` that stay within the edits go forward to `p + i`. -/
theorem TeEditPos.redos {Bs : List (List Int32)} {es : List TeEditOp}
    (hrd : TeEditsRel (TeEditOp.Redoes M) Bs es) :
    ∀ i {p : Nat} {w : TeWorld}, p + i ≤ es.length → TeEditPos Bs es p w.ctx →
      ∃ wr, teRun M w (List.replicate i .redo) = some wr ∧ TeEditPos Bs es (p + i) wr.ctx
  | 0, _, w, _, h => ⟨w, rfl, h⟩
  | i + 1, p, w, hi, h => by
    obtain ⟨c', hredo, h'⟩ := h.redo M hrd (by omega)
    obtain ⟨wr, hwr, hpos⟩ := TeEditPos.redos hrd i (w := { w with ctx := c' }) (by omega) h'
    refine ⟨wr, ?_, by rwa [Nat.add_right_comm, Nat.add_assoc] at hpos⟩
    simp only [List.replicate_succ, teRun, teStep, hredo, Option.map_some', Option.some_bind, hwr]

/-- The undo law for the edits it covers: from a reachable writable editor whose allocations all
succeed, after a run of `k` covered edits (`TeCall.Undoable`), with `k` no more than a nonzero
history limit, `j ≤ k` calls of `te_undo` give the buffer after the first `k - j` edits. -/
theorem teRun_undo_restores {lctx : LlamaContext} {w w' : TeWorld} {cs : List TeCall}
    (hr : TeReachable M lctx w) (hro : w.ctx.readonly = false) (ha : w.ctx.AllocOk)
    (hlim : w.ctx.historyLimit = 0 ∨ cs.length ≤ w.ctx.historyLimit)
    (hrun : teRun M w cs = some w')
    (hed : ∀ i (hi : i < cs.length) wi, teRun M w (cs.take i) = some wi →
      (cs.get ⟨i, hi⟩).Undoable M wi.ctx) :
    ∀ j ≤ cs.length, ∃ wj wu, teRun M w (cs.take (cs.length - j)) = some wj ∧
      teRun M w' (List.replicate j .undo) = some wu ∧ wu.ctx.view = wj.ctx.view := by
  intro j hj
  obtain ⟨Bs, es, hpos, hes, hU, -, hpre, -⟩ :=
    TeEditPos.run M ⟨hr.wf M, hro, ha⟩ (hr.logInv M) cs hlim hrun hed
  obtain ⟨wu, hwu, hposu⟩ := TeEditPos.undos M hU j (by omega) hpos
  obtain ⟨wj, hwj, hv⟩ := hpre (cs.length - j) (Nat.sub_le _ _)
  rw [hes] at hposu
  exact ⟨wj, wu, hwj, hwu, Option.some.inj (hposu.view.symm.trans hv)⟩

/-- From `te_init`, an insertion of `[0, 1, 2]` is a run of one covered edit. -/
theorem teRun_insert_fresh {ctx0 : TeContext} (h0 : (teInit ⟨[], []⟩ []).1 = some ctx0)
    (ha : ctx0.AllocOk) :
    ∃ w', teRun default ⟨ctx0, []⟩ [.insertTokens 0 0 (some [0, 1, 2]) 3] = some w' ∧
      ∀ i (hi' : i < [TeCall.insertTokens 0 0 (some [0, 1, 2]) 3].length) wi,
        teRun default ⟨ctx0, []⟩ ([TeCall.insertTokens 0 0 (some [0, 1, 2]) 3].take i) = some wi →
        ([TeCall.insertTokens 0 0 (some [0, 1, 2]) 3].get ⟨i, hi'⟩).Undoable default wi.ctx := by
  have hi := teInit_initial h0
  obtain ⟨c1, h1, -⟩ := teInsertTokens_spec default 0 0 [0, 1, 2] 3 ⟨hi.wf, hi.writable, ha⟩
    (by decide) (by simp [hi.nTokens_eq]) (by decide) (by decide)
  refine ⟨_, by rw [teRun, teStep, h1]; rfl, fun i hi' wi hwi => ?_⟩
  obtain rfl : i = 0 := by simpa using hi'
  cases hwi
  exact ⟨by decide, by simp [hi.nTokens_eq], by decide, by decide, by simp [hi.nTokens_eq]⟩

/-- From `te_init`, an insertion of `[0, 1, 2]` and one `te_undo`: the buffer is empty again. -/
theorem teRun_undo_restores_insert :
    ∃ w w' wu : TeWorld, TeReachable default ⟨[], []⟩ w ∧
      teRun default w [.insertTokens 0 0 (some [0, 1, 2]) 3] = some w' ∧
      teRun default w' [.undo] = some wu ∧ wu.ctx.view = w.ctx.view := by
  obtain ⟨ctx0, h0, ha⟩ := teInit_allocOk ⟨[], []⟩ (List.not_mem_nil true)
  have hi := teInit_initial h0
  obtain ⟨w', hrun, hed⟩ := teRun_insert_fresh h0 ha
  obtain ⟨wj, wu, hwj, hwu, hv⟩ := teRun_undo_restores default (.init h0) hi.writable ha
    (.inr (by rw [hi.historyLimit_eq]; decide)) hrun hed 1 le_rfl
  simp only [List.length_singleton, Nat.sub_self, List.take_zero, teRun_nil, Option.some.injEq] at hwj
  subst hwj
  exact ⟨_, _, wu, .init h0, hrun, hwu, hv⟩

/-- The redo law for insertions, deletions and clears: from a reachable writable editor whose
allocations all succeed, after a run of `k` covered edits none of which logs a replacement, with
`k` no more than a nonzero history limit, `j ≤ k` calls of `te_undo` and then `i ≤ j` calls of
`te_redo` give the buffer after the first `k - j + i` edits. -/
theorem teRun_undo_redo_restores {lctx : LlamaContext} {w w' : TeWorld} {cs : List TeCall}
    (hr : TeReachable M lctx w) (hro : w.ctx.readonly = false) (ha : w.ctx.AllocOk)
    (hlim : w.ctx.historyLimit = 0 ∨ cs.length ≤ w.ctx.historyLimit)
    (hrun : teRun M w cs = some w')
    (hed : ∀ i (hi : i < cs.length) wi, teRun M w (cs.take i) = some wi →
      (cs.get ⟨i, hi⟩).Undoable M wi.ctx)
    (hns : ∀ c ∈ cs, c.logsReplace = false) :
    ∀ j ≤ cs.length, ∀ i ≤ j, ∃ wm wr, teRun M w (cs.take (cs.length - j + i)) = some wm ∧
      teRun M w' (List.replicate j .undo ++ List.replicate i .redo) = some wr ∧
      wr.ctx.view = wm.ctx.view := by
  intro j hj i hi
  obtain ⟨Bs, es, hpos, hes, hU, hR, hpre, -⟩ :=
    TeEditPos.run M ⟨hr.wf M, hro, ha⟩ (hr.logInv M) cs hlim hrun hed
  obtain ⟨wu, hwu, hposu⟩ := TeEditPos.undos M hU j (by omega) hpos
  obtain ⟨wr, hwr, hposr⟩ := TeEditPos.redos M (hR hns) i (by omega) hposu
  obtain ⟨wm, hwm, hv⟩ := hpre (cs.length - j + i) (by omega)
  rw [hes] at hposr
  exact ⟨wm, wr, hwm, by rw [teRun_append, hwu, Option.some_bind, hwr],
    Option.some.inj (hposr.view.symm.trans hv)⟩

/-- From `te_init`, an insertion of `[0, 1, 2]`, one `te_undo` and one `te_redo`: the buffer is
`[0, 1, 2]` again. -/
theorem teRun_undo_redo_restores_insert :
    ∃ w w' wr : TeWorld, TeReachable default ⟨[], []⟩ w ∧
      teRun default w [.insertTokens 0 0 (some [0, 1, 2]) 3] = some w' ∧
      teRun default w' [.undo, .redo] = some wr ∧ wr.ctx.view = w'.ctx.view := by
  obtain ⟨ctx0, h0, ha⟩ := teInit_allocOk ⟨[], []⟩ (List.not_mem_nil true)
  have hi := teInit_initial h0
  obtain ⟨w', hrun, hed⟩ := teRun_insert_fresh h0 ha
  obtain ⟨wm, wr, hwm, hwr, hv⟩ := teRun_undo_redo_restores default (.init h0) hi.writable ha
    (.inr (by rw [hi.historyLimit_eq]; decide)) hrun hed
    (fun c hc => by rw [List.mem_singleton.mp hc]; rfl) 1 le_rfl 1 le_rfl
  rw [List.length_singleton, List.take_of_length_le (by simp), hrun, Option.some.injEq] at hwm
  subst hwm
  exact ⟨_, w', wr, .init h0, hrun, hwr, hv⟩

end TokenEditor
