import TokenEditor.TEUndoLaw
import TokenEditor.TEShape

/-! The edit log over whole runs. A call other than undo, redo and the two history setters
changes the log only through `te_record_edit`, at most once: it links one entry, trims to the
limit and empties the redo stack. From this, `history_tail` stays the last entry of `history`
in every reachable editor, and undo and redo move exactly one entry each way. The calls that
record are named by `TeCall.Logged`; `te_replace_tokens` over an empty clamped range changes
the buffer and records nothing. -/
namespace TokenEditor

/-- The fields of an editor that make up its edit log. -/
structure TeLog where
  history : List TeEditOp
  historyTail : Option TeEditOp
  redoStack : List TeEditOp
  historyLimit : Nat
  suppressHistory : Bool
  deriving DecidableEq

def TeContext.log (ctx : TeContext) : TeLog :=
  ⟨ctx.history, ctx.historyTail, ctx.redoStack, ctx.historyLimit, ctx.suppressHistory⟩

/-- The log after `te_record_edit` links `op` at the tail, trims, and empties the redo stack. -/
def TeLog.record (l : TeLog) (op : TeEditOp) : TeLog :=
  { l with history := teKeepRecent l.historyLimit
                        (if l.historyTail.isSome then l.history ++ [op] else [op])
           historyTail := some op, redoStack := [] }

/-- What a call other than undo, redo and the history setters does to the log: nothing, or
with recording on one record. -/
def TeLog.Steps (l l' : TeLog) : Prop :=
  l' = l ∨ (l.suppressHistory = false ∧ ∃ op, l' = l.record op)

/-- `history_tail` is the last node of `history`, and `NULL` exactly when `history` is. -/
def TeLog.TailOk (l : TeLog) : Prop := l.historyTail = l.history.getLast?

theorem TeLog.Steps.refl (l : TeLog) : TeLog.Steps l l := .inl rfl

theorem TeLog.Steps.of_suppress {l l' : TeLog} (h : TeLog.Steps l l') (hs : l.suppressHistory = true) :
    l' = l := by
  rcases h with h | ⟨hf, -⟩
  · exact h
  · rw [hs] at hf; cases hf

theorem TeLog.tailOk_record (l : TeLog) (op : TeEditOp) : (l.record op).TailOk := by
  unfold TeLog.TailOk TeLog.record
  split
  · exact (getLast?_teKeepRecent _ _ _).symm
  · exact (getLast?_teKeepRecent _ [] _).symm

theorem TeLog.Steps.tailOk {l l' : TeLog} (h : TeLog.Steps l l') (hl : l.TailOk) : l'.TailOk := by
  rcases h with rfl | ⟨-, op, rfl⟩
  · exact hl
  · exact l.tailOk_record op

/-- On a log whose tail is its last entry, linking `op` at the tail appends it. -/
theorem TeLog.link_eq {l : TeLog} (hl : l.TailOk) (op : TeEditOp) :
    (if l.historyTail.isSome then l.history ++ [op] else [op]) = l.history ++ [op] := by
  rw [hl]
  rcases l.history.eq_nil_or_concat with h | ⟨L, b, h⟩
  · rw [h]; rfl
  · rw [h, List.concat_eq_append, List.getLast?_concat]; rfl

/-- A record appends, then keeps the last `history_limit` entries (all of them when the limit
is 0). -/
theorem TeLog.record_history {l : TeLog} (hl : l.TailOk) (op : TeEditOp) :
    (l.record op).history = teKeepRecent l.historyLimit (l.history ++ [op]) := by
  unfold TeLog.record
  rw [l.link_eq hl]

theorem teLogEdit_log (ctx : TeContext) (op : TeEditOp) :
    (teLogEdit ctx op).log = ctx.log.record op := by
  simp only [TeContext.log, TeLog.record, teLogEdit_history, teLogEdit_historyTail,
    teLogEdit_redoStack]
  rfl

theorem teRecordEdit_log (ctx : TeContext) (type : TeOpType) (source dest : TeRange)
    (tokens : List Int32) : TeLog.Steps ctx.log (teRecordEdit ctx type source dest tokens).log := by
  simp only [teRecordEdit, teMalloc]
  split_ifs with hs <;> first
    | exact .refl _
    | exact .inr ⟨by simpa using hs, _, teLogEdit_log _ _⟩

@[simp] theorem teMalloc_log (ctx : TeContext) : (teMalloc ctx).2.log = ctx.log := rfl

@[simp] theorem teEnsureCapacity_log (ctx : TeContext) (required : Nat) :
    (teEnsureCapacity ctx required).2.log = ctx.log := by
  simp only [teEnsureCapacity, teMalloc]
  split_ifs <;> rfl

theorem teRecordEdit_log_of_eq {c ctx : TeContext} (hc : c.log = ctx.log) (type : TeOpType)
    (source dest : TeRange) (tokens : List Int32) :
    TeLog.Steps ctx.log (teRecordEdit c type source dest tokens).log :=
  hc ▸ teRecordEdit_log c type source dest tokens

theorem TeContext.Edited.log_eq {ctx c : TeContext} (h : ctx.Edited c) : c.log = ctx.log := by
  rw [h.frame]; rfl

section Mutators
variable (M : LlamaModel) {ctx ctx' : TeContext} {e : TeError}

theorem teSetToken_log {pos seqId token : Int32} (h : teSetToken M ctx pos seqId token = some (e, ctx')) :
    TeLog.Steps ctx.log ctx'.log := by
  unfold teSetToken at h
  split_ifs at h
  · cases h; exact .refl _
  · cases h; exact .refl _
  simp only [Option.bind_eq_bind] at h
  obtain ⟨_, -, h⟩ := Option.bind_eq_some.mp h
  obtain ⟨_, -, h⟩ := Option.bind_eq_some.mp h
  obtain ⟨_, -, h⟩ := Option.bind_eq_some.mp h
  obtain ⟨_, -, h⟩ := Option.bind_eq_some.mp h
  cases h
  exact teRecordEdit_log _ _ _ _ _

theorem teInsertTokens_log {pos seqId : Int32} {tokens : Option (List Int32)} {n : Nat}
    (h : teInsertTokens M ctx pos seqId tokens n = some (e, ctx')) : TeLog.Steps ctx.log ctx'.log := by
  unfold teInsertTokens at h
  split at h; · cases h; exact .refl _
  split at h; · cases h; exact .refl _
  split at h; · cases h; exact .refl _
  split at h; · cases h; exact .refl _
  dsimp only at h
  have hc : (teEnsureCapacity ctx (ctx.nTokens + n)).2.log = ctx.log := teEnsureCapacity_log _ _
  generalize teEnsureCapacity ctx (ctx.nTokens + n) = E at h hc
  split at h; · cases h; exact .inl hc
  obtain ⟨_, -, h⟩ := Option.bind_eq_some.mp h
  obtain ⟨_, -, h⟩ := Option.bind_eq_some.mp h
  obtain ⟨_, -, h⟩ := Option.bind_eq_some.mp h
  obtain ⟨_, -, h⟩ := Option.bind_eq_some.mp h
  obtain ⟨_, -, h⟩ := Option.bind_eq_some.mp h
  cases h
  exact teRecordEdit_log_of_eq (by exact hc) _ _ _ _

theorem teDeleteTokens_log {range : TeRange} (h : teDeleteTokens ctx range = some (e, ctx')) :
    TeLog.Steps ctx.log ctx'.log := by
  unfold teDeleteTokens at h
  split at h; · cases h; exact .refl _
  split at h
  split at h; · cases h; exact .refl _
  split at h
  next c1 hm =>
  have hc1 : c1.log = ctx.log := by rw [← teMalloc_log ctx, hm]
  simp only [Option.bind_eq_bind] at h
  obtain ⟨c2, h2, h⟩ := Option.bind_eq_some.mp h
  obtain ⟨_, -, h⟩ := Option.bind_eq_some.mp h
  obtain ⟨_, -, h⟩ := Option.bind_eq_some.mp h
  cases h
  split at h2
  · obtain ⟨_, -, h2⟩ := Option.bind_eq_some.mp h2
    cases h2
    exact teRecordEdit_log_of_eq (by exact hc1) _ _ _ _
  · cases h2; exact .inl hc1

/-- `te_replace_tokens` records at most once, whether the clamped range is empty or not. -/
theorem teReplaceTokens_log {range : TeRange} {tokens : Option (List Int32)} {n : Nat}
    (h : teReplaceTokens M ctx range tokens n = some (e, ctx')) : TeLog.Steps ctx.log ctx'.log := by
  unfold teReplaceTokens at h
  split at h; · cases h; exact .refl _
  split at h
  next start stop _ =>
  dsimp only at h
  generalize hm : (if 0 < (if start.toInt < stop.toInt then (stop.toInt - start.toInt).toNat else 0)
    then teMalloc ctx else (false, ctx)) = m at h
  have hc1 : m.2.log = ctx.log := by rw [← hm]; split <;> split <;> rfl
  obtain ⟨saved, -, h⟩ := Option.bind_eq_some.mp h
  generalize hE : teEnsureCapacity m.2 (m.2.nTokens -
    (if start.toInt < stop.toInt then (stop.toInt - start.toInt).toNat else 0) + n) = E at h
  have hc2 : E.2.log = ctx.log := by rw [← hE, teEnsureCapacity_log, hc1]
  split at h; · cases h; exact .inl hc2
  obtain ⟨_, -, h⟩ := Option.bind_eq_some.mp h
  obtain ⟨_, -, h⟩ := Option.bind_eq_some.mp h
  obtain ⟨_, -, h⟩ := Option.bind_eq_some.mp h
  obtain ⟨_, -, h⟩ := Option.bind_eq_some.mp h
  obtain ⟨_, -, h⟩ := Option.bind_eq_some.mp h
  split at h
  · cases h; exact teRecordEdit_log_of_eq (by exact hc2) _ _ _ _
  · cases h; exact .inl hc2

theorem teReplaceText_log {range : TeRange} {text : Option (List UInt8)}
    (h : teReplaceText M ctx range text = some (e, ctx')) : TeLog.Steps ctx.log ctx'.log := by
  unfold teReplaceText at h
  split at h; · cases h; exact .refl _
  dsimp only at h
  split at h; · cases h; exact .refl _
  split at h; · cases h; exact .refl _
  have := teReplaceTokens_log M h
  exact this

theorem teClear_log {seqId : Int32} (h : teClear ctx seqId = some (e, ctx')) :
    TeLog.Steps ctx.log ctx'.log := by
  unfold teClear at h
  split at h; · cases h; exact .refl _
  simp only [Option.bind_eq_bind] at h
  obtain ⟨c, hc, h⟩ := Option.bind_eq_some.mp h
  cases h
  split at hc
  · obtain ⟨_, -, hc⟩ := Option.bind_eq_some.mp hc
    cases hc
    exact teRecordEdit_log _ _ _ _ _
  · cases hc; exact .refl _

theorem teImportBinary_log {seqId : Int32} {buf : List UInt8}
    (h : teImportBinary M ctx seqId buf = some (e, ctx')) : TeLog.Steps ctx.log ctx'.log := by
  unfold teImportBinary at h
  split at h; · cases h; exact .refl _
  dsimp only at h
  split at h; · cases h; exact .refl _
  simp only [Option.bind_eq_bind] at h
  obtain ⟨⟨_, c⟩, hc, h⟩ := Option.bind_eq_some.mp h
  have hcl := teClear_log hc
  dsimp only at h
  split at h; · cases h; exact (teEnsureCapacity_log _ _).symm ▸ hcl
  obtain ⟨_, -, h⟩ := Option.bind_eq_some.mp h
  obtain ⟨_, -, h⟩ := Option.bind_eq_some.mp h
  obtain ⟨_, -, h⟩ := Option.bind_eq_some.mp h
  cases h
  exact (teEnsureCapacity_log _ _).symm ▸ hcl

end Mutators

/-! The calls on sequences, the cache and snapshots leave the log alone. -/
section Frame
variable {ctx ctx' : TeContext}

theorem teCreateSequence_log {id : Int32} (h : teCreateSequence ctx = some (id, ctx')) :
    ctx'.log = ctx.log := by
  simp only [teCreateSequence, Option.bind_eq_bind] at h
  obtain ⟨_, -, h⟩ := Option.bind_eq_some.mp h
  split at h
  · cases h; rfl
  · obtain ⟨_, -, h⟩ := Option.bind_eq_some.mp h
    cases h; rfl

theorem teDeleteSequence_log {seqId : Int32} {e : TeError}
    (h : teDeleteSequence ctx seqId = some (e, ctx')) : ctx'.log = ctx.log := by
  simp only [teDeleteSequence, Option.bind_eq_bind] at h
  obtain ⟨_, -, h⟩ := Option.bind_eq_some.mp h
  split at h
  · cases h; rfl
  · obtain ⟨_, -, h⟩ := Option.bind_eq_some.mp h
    cases h; rfl

theorem teForkSequence_log {src id : Int32} (h : teForkSequence ctx src = some (id, ctx')) :
    ctx'.log = ctx.log := by
  simp only [teForkSequence, Option.bind_eq_bind] at h
  obtain ⟨⟨_, c⟩, hc, h⟩ := Option.bind_eq_some.mp h
  rw [← teCreateSequence_log hc]
  dsimp only at h
  split at h <;> (cases h; rfl)

theorem teSyncKvCache_log {e : TeError} (h : teSyncKvCache ctx = some (e, ctx')) :
    ctx'.log = ctx.log := by
  unfold teSyncKvCache at h
  split at h; · cases h; rfl
  dsimp only at h
  split at h
  · simp only [Option.bind_eq_bind] at h
    obtain ⟨_, -, h⟩ := Option.bind_eq_some.mp h
    split at h <;> (cases h; rfl)
  · cases h; rfl

theorem teSnapshotState_log (snap : TeSnapshot) : (teSnapshotState ctx snap).2.log = ctx.log := rfl

theorem teCreateSnapshot_log {snap : Option TeSnapshot}
    (h : teCreateSnapshot ctx = some (snap, ctx')) : ctx'.log = ctx.log := by
  unfold teCreateSnapshot at h
  dsimp only at h
  split at h; · cases h; exact teMalloc_log _
  split at h
  · split at h; · cases h; simp only [teMalloc_log]
    obtain ⟨_, -, h⟩ := Option.bind_eq_some.mp h
    obtain ⟨_, -, h⟩ := Option.bind_eq_some.mp h
    obtain rfl : _ = ctx' := congrArg Prod.snd (Option.some.inj h)
    simp only [teSnapshotState_log, teMalloc_log]
  · obtain rfl : _ = ctx' := congrArg Prod.snd (Option.some.inj h)
    rw [teSnapshotState_log, teMalloc_log]

theorem teRestoreSnapshot_log {snap : TeSnapshot} {e : TeError}
    (h : teRestoreSnapshot ctx snap = some (e, ctx')) : ctx'.log = ctx.log := by
  unfold teRestoreSnapshot at h
  dsimp only at h
  split at h; · cases h; exact teEnsureCapacity_log _ _
  simp only [Option.bind_eq_bind] at h
  obtain ⟨c, hc, h⟩ := Option.bind_eq_some.mp h
  have hcl : c.log = ctx.log := by
    split at hc
    · obtain ⟨_, -, hc⟩ := Option.bind_eq_some.mp hc
      obtain ⟨_, -, hc⟩ := Option.bind_eq_some.mp hc
      obtain ⟨_, -, hc⟩ := Option.bind_eq_some.mp hc
      obtain ⟨_, -, hc⟩ := Option.bind_eq_some.mp hc
      cases hc; exact teEnsureCapacity_log _ _
    · cases hc; exact teEnsureCapacity_log _ _
  split at h <;> (cases h; exact hcl)

end Frame

section UndoRedo
variable (M : LlamaModel) {ctx c : TeContext} {e : TeError}

theorem teUndoReplay_log {op : TeEditOp} (h : teUndoReplay M ctx op = some c) :
    TeLog.Steps ctx.log c.log := by
  unfold teUndoReplay at h
  split at h
  · obtain ⟨_, hm, rfl⟩ := Option.map_eq_some'.mp h; exact teDeleteTokens_log hm
  · obtain ⟨_, hm, rfl⟩ := Option.map_eq_some'.mp h; exact teInsertTokens_log M hm
  · obtain ⟨_, hm, rfl⟩ := Option.map_eq_some'.mp h; exact teReplaceTokens_log M hm
  · cases h; exact .refl _

theorem teRedoReplay_log {op : TeEditOp} (h : teRedoReplay M ctx op = some c) :
    TeLog.Steps ctx.log c.log := by
  unfold teRedoReplay at h
  split at h
  · obtain ⟨_, hm, rfl⟩ := Option.map_eq_some'.mp h; exact teInsertTokens_log M hm
  · obtain ⟨_, hm, rfl⟩ := Option.map_eq_some'.mp h; exact teDeleteTokens_log hm
  · obtain ⟨_, hm, rfl⟩ := Option.map_eq_some'.mp h; exact teReplaceTokens_log M hm
  · cases h; exact .refl _

/-- `te_undo` on a history ending in `op` moves `op` onto the redo stack and nothing else. -/
theorem teUndo_moves (hok : ctx.log.TailOk) {hs : List TeEditOp} {op : TeEditOp}
    (hh : ctx.history = hs ++ [op]) (h : teUndo M ctx = some (e, c)) :
    e = .ok ∧ c.history = hs ∧ c.historyTail = hs.getLast? ∧ c.redoStack = op :: ctx.redoStack := by
  have hl : ctx.history.getLast? = some op := by rw [hh, List.getLast?_concat]
  rw [teUndo_eq M (hok.trans hl) hl] at h
  obtain ⟨r, hr, he⟩ := Option.map_eq_some'.mp h
  have hrl := (teUndoReplay_log M hr).of_suppress rfl
  obtain ⟨rfl, rfl⟩ := Prod.mk.inj he
  have hd : ctx.history.dropLast = hs := by rw [hh, List.dropLast_concat]
  have hrh : r.history = ctx.history.dropLast := congrArg TeLog.history hrl
  have hrt : r.historyTail = ctx.history.dropLast.getLast? := congrArg TeLog.historyTail hrl
  have hrr : r.redoStack = ctx.redoStack := congrArg TeLog.redoStack hrl
  exact ⟨rfl, hrh.trans hd, hrt.trans (by rw [hd]), congrArg (op :: ·) hrr⟩

/-- `te_redo` with `op` on top of the redo stack moves it to the end of the history. -/
theorem teRedo_moves (hok : ctx.log.TailOk) {op : TeEditOp} {rest : List TeEditOp}
    (hr : ctx.redoStack = op :: rest) (h : teRedo M ctx = some (e, c)) :
    e = .ok ∧ c.history = ctx.history ++ [op] ∧ c.historyTail = some op ∧ c.redoStack = rest := by
  rw [teRedo_eq M hr] at h
  obtain ⟨r, hrp, he⟩ := Option.map_eq_some'.mp h
  have hrl := (teRedoReplay_log M hrp).of_suppress rfl
  obtain ⟨rfl, rfl⟩ := Prod.mk.inj he
  have hh : r.history = ctx.history := congrArg TeLog.history hrl
  have ht : r.historyTail = ctx.historyTail := congrArg TeLog.historyTail hrl
  refine ⟨rfl, ?_, rfl, congrArg TeLog.redoStack hrl⟩
  show (if r.historyTail.isSome then r.history ++ [op] else [op]) = _
  rw [hh, ht]
  exact TeLog.link_eq hok op

theorem teUndo_tailOk (hok : ctx.log.TailOk) (h : teUndo M ctx = some (e, c)) : c.log.TailOk := by
  rcases ctx.history.eq_nil_or_concat with hn | ⟨hs, op, hh⟩
  · have ht : ctx.historyTail = none := by
      have : ctx.historyTail = ctx.history.getLast? := hok
      rw [this, hn]; rfl
    simp only [teUndo, ht, Option.some.injEq, Prod.mk.injEq] at h
    obtain ⟨-, rfl⟩ := h
    exact hok
  · obtain ⟨-, hc, ht, -⟩ := teUndo_moves M hok (hh.trans (List.concat_eq_append _ _)) h
    show c.historyTail = c.history.getLast?
    rw [hc, ht]

theorem teRedo_tailOk (hok : ctx.log.TailOk) (h : teRedo M ctx = some (e, c)) : c.log.TailOk := by
  cases hr : ctx.redoStack with
  | nil =>
    simp only [teRedo, hr, Option.some.injEq, Prod.mk.injEq] at h
    obtain ⟨-, rfl⟩ := h
    exact hok
  | cons op rest =>
    obtain ⟨-, hc, ht, -⟩ := teRedo_moves M hok hr h
    show c.historyTail = c.history.getLast?
    rw [hc, ht, List.getLast?_concat]

theorem teUndo_suppressHistory (h : teUndo M ctx = some (e, c)) :
    c.suppressHistory = ctx.suppressHistory := by
  unfold teUndo at h
  split at h; · cases h; rfl
  split at h; · cases h; rfl
  simp only [Option.bind_eq_bind] at h
  obtain ⟨_, -, h⟩ := Option.bind_eq_some.mp h
  cases h; rfl

theorem teRedo_suppressHistory (h : teRedo M ctx = some (e, c)) :
    c.suppressHistory = ctx.suppressHistory := by
  unfold teRedo at h
  split at h; · cases h; rfl
  simp only [Option.bind_eq_bind] at h
  obtain ⟨_, -, h⟩ := Option.bind_eq_some.mp h
  cases h; rfl

end UndoRedo

theorem length_teKeepRecent_le {α : Type} {limit : Nat} (h : 0 < limit) (l : List α) :
    (teKeepRecent limit l).length ≤ limit := by
  simp only [teKeepRecent, h, if_true, List.length_drop]
  omega

/-- With recording on and its allocations succeeding, `te_record_edit` appends its entry,
trims to the limit and empties the redo stack. -/
theorem teRecordEdit_appends {ctx : TeContext} (hok : ctx.log.TailOk)
    (hs : ctx.suppressHistory = false) (ha : ctx.AllocOk) (type : TeOpType) (source dest : TeRange)
    (tokens : List Int32) :
    (teRecordEdit ctx type source dest tokens).history =
      teKeepRecent ctx.historyLimit (ctx.history ++ [teEntry type source dest tokens]) ∧
    (teRecordEdit ctx type source dest tokens).historyTail = some (teEntry type source dest tokens) ∧
    (teRecordEdit ctx type source dest tokens).redoStack = [] := by
  obtain ⟨m, h⟩ := teRecordEdit_of_allocOk type source dest tokens hs ha
  have hl := teLogEdit_log { ctx with mallocFails := m } (teEntry type source dest tokens)
  rw [h]
  exact ⟨(congrArg TeLog.history hl).trans (TeLog.record_history hok _),
    congrArg TeLog.historyTail hl, congrArg TeLog.redoStack hl⟩

variable (M : LlamaModel)

/-- One call of the machine: the log moves by `TeLog.Steps`, except under undo, redo and the
two history setters. -/
theorem teStep_log {w w' : TeWorld} {c : TeCall} (h : teStep M w c = some w') :
    TeLog.Steps w.ctx.log w'.ctx.log ∨ c = .undo ∨ c = .redo ∨ c = .clearHistory ∨
      ∃ l, c = .setHistoryLimit l := by
  cases c with
  | undo => exact .inr (.inl rfl)
  | redo => exact .inr (.inr (.inl rfl))
  | clearHistory => exact .inr (.inr (.inr (.inl rfl)))
  | setHistoryLimit l => exact .inr (.inr (.inr (.inr ⟨l, rfl⟩)))
  | setToken =>
    obtain ⟨_, hm, rfl⟩ := Option.map_eq_some'.mp h; exact .inl (teSetToken_log M hm)
  | insertTokens =>
    obtain ⟨_, hm, rfl⟩ := Option.map_eq_some'.mp h; exact .inl (teInsertTokens_log M hm)
  | deleteTokens =>
    obtain ⟨_, hm, rfl⟩ := Option.map_eq_some'.mp h; exact .inl (teDeleteTokens_log hm)
  | replaceTokens =>
    obtain ⟨_, hm, rfl⟩ := Option.map_eq_some'.mp h; exact .inl (teReplaceTokens_log M hm)
  | replaceText =>
    obtain ⟨_, hm, rfl⟩ := Option.map_eq_some'.mp h; exact .inl (teReplaceText_log M hm)
  | clear =>
    obtain ⟨_, hm, rfl⟩ := Option.map_eq_some'.mp h; exact .inl (teClear_log hm)
  | importBinary =>
    obtain ⟨_, hm, rfl⟩ := Option.map_eq_some'.mp h; exact .inl (teImportBinary_log M hm)
  | createSequence =>
    obtain ⟨_, hm, rfl⟩ := Option.map_eq_some'.mp h; exact .inl (.inl (teCreateSequence_log hm))
  | deleteSequence =>
    obtain ⟨_, hm, rfl⟩ := Option.map_eq_some'.mp h; exact .inl (.inl (teDeleteSequence_log hm))
  | forkSequence =>
    obtain ⟨_, hm, rfl⟩ := Option.map_eq_some'.mp h; exact .inl (.inl (teForkSequence_log hm))
  | syncKvCache =>
    obtain ⟨_, hm, rfl⟩ := Option.map_eq_some'.mp h; exact .inl (.inl (teSyncKvCache_log hm))
  | createSnapshot =>
    obtain ⟨⟨_, _⟩, hm, rfl⟩ := Option.map_eq_some'.mp h; exact .inl (.inl (teCreateSnapshot_log hm))
  | restoreSnapshot =>
    simp only [teStep, Option.bind_eq_bind] at h
    obtain ⟨_, -, h⟩ := Option.bind_eq_some.mp h
    obtain ⟨_, hm, rfl⟩ := Option.map_eq_some'.mp h; exact .inl (.inl (teRestoreSnapshot_log hm))
  | copySequence | invalidateKvRange | clearKvCache | shiftKvCache | setReadonly =>
    cases h; exact .inl (.refl _)

/-- What every reachable editor keeps of its log: the tail is the last entry, and recording
is on (undo and redo restore the flag they found). -/
def TeLog.Inv (l : TeLog) : Prop := l.TailOk ∧ l.suppressHistory = false

theorem teStep_logInv {w w' : TeWorld} {c : TeCall} (hi : w.ctx.log.Inv)
    (h : teStep M w c = some w') : w'.ctx.log.Inv := by
  rcases teStep_log M h with hs | rfl | rfl | rfl | ⟨l, rfl⟩
  · rcases hs with he | ⟨-, op, he⟩ <;> rw [he]
    · exact hi
    · exact ⟨TeLog.tailOk_record _ op, hi.2⟩
  · obtain ⟨_, hm, rfl⟩ := Option.map_eq_some'.mp h
    exact ⟨teUndo_tailOk M hi.1 hm, (teUndo_suppressHistory M hm).trans hi.2⟩
  · obtain ⟨_, hm, rfl⟩ := Option.map_eq_some'.mp h
    exact ⟨teRedo_tailOk M hi.1 hm, (teRedo_suppressHistory M hm).trans hi.2⟩
  · cases h; exact ⟨rfl, hi.2⟩
  · cases h; exact hi

theorem TeReachable.logInv {lctx : LlamaContext} {w : TeWorld} (hw : TeReachable M lctx w) :
    w.ctx.log.Inv := by
  induction hw with
  | @init _ ctx h =>
    have hi := teInit_initial h
    refine ⟨?_, hi.recording⟩
    show ctx.historyTail = ctx.history.getLast?
    rw [hi.historyTail_eq, hi.history_eq]; rfl
  | step _ _ h ih => exact teStep_logInv M ih h

/-- The calls that record one entry when they succeed on a writable editor whose allocations
succeed: `te_set_token` inside the buffer, `te_insert_tokens` of `k ≥ 1` tokens at a position in
`[0, n_tokens]`, `te_delete_tokens`, and `te_replace_tokens` by `k ≥ 1` tokens, over a range
whose clamp is not empty, and `te_clear` of a non-empty buffer. -/
def TeCall.Logged (ctx : TeContext) : TeCall → Prop
  | .setToken pos _ _ => 0 ≤ pos.toInt ∧ pos.toInt.toNat < ctx.nTokens
  | .insertTokens pos _ (some buf) k =>
    0 ≤ pos.toInt ∧ pos.toInt.toNat ≤ ctx.nTokens ∧ 0 < k ∧ k ≤ buf.length
  | .deleteTokens range => (teClampRange ctx range).1.toInt < (teClampRange ctx range).2.toInt
  | .replaceTokens range (some buf) k =>
    (teClampRange ctx range).1.toInt < (teClampRange ctx range).2.toInt ∧ 0 < k ∧ k ≤ buf.length
  | .clear _ => 0 < ctx.nTokens
  | _ => False

/-- A range whose clamp is not empty acts as its clamp, a non-empty range of `[0, n_tokens]`. -/
theorem teClampRange_nonempty {ctx : TeContext} (range : TeRange) (h31 : ctx.nTokens < 2^31)
    (hlt : (teClampRange ctx range).1.toInt < (teClampRange ctx range).2.toInt) :
    ∃ r' : TeRange, r'.seqId = range.seqId ∧ 0 ≤ r'.start.toInt ∧ r'.start.toInt < r'.stop.toInt ∧
      r'.stop.toInt ≤ ctx.nTokens ∧ teClampRange ctx r' = teClampRange ctx range := by
  obtain ⟨h0, hle⟩ := teClampRange_bounds range h31
  exact ⟨⟨(teClampRange ctx range).1, (teClampRange ctx range).2, range.seqId⟩, rfl, h0, hlt, hle,
    teClampRange_of_le _ h0 (h0.trans hlt.le) hle⟩

theorem TeContext.Edited.recordWorld {w w' : TeWorld} {c1 : TeContext} {type : TeOpType}
    {src dst : TeRange} {toks : List Int32} (hE : w.ctx.Edited c1)
    (h : { w with ctx := teRecordEdit c1 type src dst toks } = w') :
    ∃ c1 type src dst toks, w'.ctx = teRecordEdit c1 type src dst toks ∧ w.ctx.Edited c1 := by
  subst h; exact ⟨c1, type, src, dst, toks, rfl, hE⟩

/-- A logged call on a ready editor edits its buffer and then runs `te_record_edit`. -/
theorem TeCall.Logged.records {w w' : TeWorld} {c : TeCall} (hc : c.Logged w.ctx)
    (hr : w.ctx.Ready) (h31 : w.ctx.nTokens < 2^31) (h : teStep M w c = some w') :
    ∃ c1 type src dst toks, w'.ctx = teRecordEdit c1 type src dst toks ∧ w.ctx.Edited c1 := by
  cases c with
  | setToken pos seqId token =>
    obtain ⟨_, c1, -, hset, hE, -⟩ := teSetToken_spec M pos seqId token hr.wf hr.writable hc.1 hc.2
    simp only [teStep, hset, Option.map_some', Option.some.injEq] at h
    exact hE.recordWorld h
  | insertTokens pos seqId tokens k =>
    rcases tokens with _ | buf
    · exact hc.elim
    obtain ⟨hp, hpn, hk, hb⟩ := hc
    obtain ⟨c1, hins, hE, -⟩ := teInsertTokens_spec M pos seqId buf k hr hp hpn hk hb
    simp only [teStep, hins, Option.map_some', Option.some.injEq] at h
    exact hE.recordWorld h
  | deleteTokens range =>
    obtain ⟨r', hs, h0, hlt, hle, hcl⟩ := teClampRange_nonempty range h31 hc
    obtain ⟨c1, hdel, hE, -⟩ := teDeleteTokens_spec r' hr h0 hlt hle
    rw [teDeleteTokens_congr hcl hs] at hdel
    simp only [teStep, hdel, Option.map_some', Option.some.injEq] at h
    exact hE.recordWorld h
  | replaceTokens range tokens k =>
    rcases tokens with _ | buf
    · exact hc.elim
    obtain ⟨hne, hk, hb⟩ := hc
    obtain ⟨r', hs, h0, hlt, hle, hcl⟩ := teClampRange_nonempty range h31 hne
    obtain ⟨c1, hrep, hE, -⟩ := teReplaceTokens_spec M r' buf k hr h0 hlt.le hle hk hb
    rw [teReplaceTokens_congr M hcl hs, if_pos hlt] at hrep
    simp only [teStep, hrep, Option.map_some', Option.some.injEq] at h
    exact hE.recordWorld h
  | clear seqId =>
    simp only [teStep, teClear_spec seqId hr.wf hr.writable, if_pos (show 0 < w.ctx.nTokens from hc),
      Option.map_some', Option.some.injEq] at h
    exact (teClear_edited hr.wf).recordWorld h
  | _ => exact hc.elim

/-- The shape of the edit log in a reachable editor: the tail is the last entry and recording is
on; a call other than undo, redo and the two history setters leaves the log or records one entry
(appended, trimmed to the limit, redo stack emptied), and a logged call on a writable editor
whose allocations succeed records one; with allocation succeeding `te_record_edit` appends
exactly its entry, keeping at most `history_limit`; undo and redo each move one entry between
the history and the redo stack. -/
structure TeLogShape (w : TeWorld) : Prop where
  tail_last : w.ctx.historyTail = w.ctx.history.getLast?
  recording : w.ctx.suppressHistory = false
  step : ∀ {c w'}, teStep M w c = some w' → c ≠ .undo → c ≠ .redo → c ≠ .clearHistory →
    (∀ l, c ≠ .setHistoryLimit l) →
    (w'.ctx.history = w.ctx.history ∧ w'.ctx.historyTail = w.ctx.historyTail ∧
      w'.ctx.redoStack = w.ctx.redoStack) ∨
    ∃ op, w'.ctx.history = teKeepRecent w.ctx.historyLimit (w.ctx.history ++ [op]) ∧
      w'.ctx.historyTail = some op ∧ w'.ctx.redoStack = []
  logged : w.ctx.readonly = false → w.ctx.AllocOk → w.ctx.nTokens < 2^31 →
    ∀ {c w'}, c.Logged w.ctx → teStep M w c = some w' →
    ∃ op, w'.ctx.history = teKeepRecent w.ctx.historyLimit (w.ctx.history ++ [op]) ∧
      w'.ctx.historyTail = some op ∧ w'.ctx.redoStack = []
  record : w.ctx.AllocOk → ∀ type source dest tokens,
    (teRecordEdit w.ctx type source dest tokens).history =
      teKeepRecent w.ctx.historyLimit (w.ctx.history ++ [teEntry type source dest tokens]) ∧
    (0 < w.ctx.historyLimit →
      (teRecordEdit w.ctx type source dest tokens).history.length ≤ w.ctx.historyLimit) ∧
    (teRecordEdit w.ctx type source dest tokens).redoStack = []
  undo : ∀ {hs op e c}, w.ctx.history = hs ++ [op] → teUndo M w.ctx = some (e, c) →
    e = .ok ∧ c.history = hs ∧ c.redoStack = op :: w.ctx.redoStack
  redo : ∀ {op rest e c}, w.ctx.redoStack = op :: rest → teRedo M w.ctx = some (e, c) →
    e = .ok ∧ c.history = w.ctx.history ++ [op] ∧ c.redoStack = rest

theorem teReachable_editLog {lctx : LlamaContext} {w : TeWorld} (hw : TeReachable M lctx w) :
    TeLogShape M w := by
  have hi := hw.logInv M
  refine ⟨hi.1, hi.2, fun {c w'} h h1 h2 h3 h4 => ?_, fun hro ha h31 {c w'} hc h => ?_,
    fun ha type source dest tokens => ?_, fun hh h => ?_, fun hr h => ?_⟩
  · rcases teStep_log M h with hs | h' | h' | h' | ⟨l, h'⟩
    · rcases hs with he | ⟨-, op, he⟩
      · exact .inl ⟨congrArg TeLog.history he, congrArg TeLog.historyTail he,
          congrArg TeLog.redoStack he⟩
      · exact .inr ⟨op, (congrArg TeLog.history he).trans (TeLog.record_history hi.1 op),
          congrArg TeLog.historyTail he, congrArg TeLog.redoStack he⟩
    · exact absurd h' h1
    · exact absurd h' h2
    · exact absurd h' h3
    · exact absurd h' (h4 l)
  · obtain ⟨c1, type, src, dst, toks, hw', hE⟩ := hc.records M ⟨hw.wf M, hro, ha⟩ h31 h
    have hok : c1.log.TailOk := by rw [hE.log_eq]; exact hi.1
    obtain ⟨hh, ht, hr⟩ := teRecordEdit_appends hok (hE.suppressHistory_eq.trans hi.2)
      (hE.allocOk ha) type src dst toks
    exact ⟨_, by rw [hw', hh, hE.history_eq, hE.historyLimit_eq], by rw [hw', ht], by rw [hw', hr]⟩
  · obtain ⟨hh, -, hr⟩ := teRecordEdit_appends hi.1 hi.2 ha type source dest tokens
    exact ⟨hh, fun hl => hh ▸ length_teKeepRecent_le hl _, hr⟩
  · obtain ⟨he, hc, -, hr⟩ := teUndo_moves M hi.1 hh h
    exact ⟨he, hc, hr⟩
  · obtain ⟨he, hc, -, hr'⟩ := teRedo_moves M hi.1 hr h
    exact ⟨he, hc, hr'⟩

/-- The shape of the log after an insertion into a fresh editor. -/
theorem teReachable_editLog_insert :
    ∃ w, TeReachable default ⟨[], []⟩ w ∧ w.ctx.view = [0, 1, 2] ∧ TeLogShape default w := by
  obtain ⟨ctx0, ctx1, h0, h1, -, -, -, hv1, -⟩ := teInsertTokens_fresh default ⟨[], []⟩
  have r1 : TeReachable default ⟨[], []⟩ ⟨ctx1, []⟩ :=
    .step (.insertTokens 0 0 (some [0, 1, 2]) 3) (.init h0) (by simp only [teStep, h1, Option.map_some'])
  exact ⟨_, r1, hv1, teReachable_editLog default r1⟩

/-- With recording on, a valid insertion into a ready editor records exactly its entry. -/
theorem teInsertTokens_records {ctx : TeContext} (pos seqId : Int32) (buf : List Int32) (k : Nat)
    (hr : ctx.Ready) (hs : ctx.suppressHistory = false) (hp : 0 ≤ pos.toInt)
    (hpn : pos.toInt.toNat ≤ ctx.nTokens) (hk : 0 < k) (hb : k ≤ buf.length) :
    ∃ c, teInsertTokens M ctx pos seqId (some buf) k = some (.ok, c) ∧
      c.log = ctx.log.record (teEntry .insert ⟨pos, toPos (pos.toInt.toNat + k), seqId⟩
        ⟨pos, toPos (pos.toInt.toNat + k), seqId⟩ (buf.take k)) ∧ c.Ready ∧
      c.view = ctx.view.take pos.toInt.toNat ++ buf.take k ++ ctx.view.drop pos.toInt.toNat := by
  obtain ⟨c, h, he, -, -, hv, -⟩ := teInsertTokens_spec M pos seqId buf k hr hp hpn hk hb
  obtain ⟨m, hm⟩ := teRecordEdit_of_allocOk .insert ⟨pos, toPos (pos.toInt.toNat + k), seqId⟩
    ⟨pos, toPos (pos.toInt.toNat + k), seqId⟩ (buf.take k) (he.suppressHistory_eq.trans hs)
    (he.allocOk hr.allocOk)
  refine ⟨_, h, ?_, (he.ready hr).teRecordEdit _ _ _ _, by rw [teRecordEdit_view, hv]⟩
  rw [hm, teLogEdit_log]
  exact congrArg (TeLog.record · _) he.log_eq

/-- `te_replace_tokens` over a range of the buffer whose start and end coincide inserts its
tokens there and records nothing: the whole log stays as it was. -/
theorem teReplaceTokens_empty_unlogged {ctx : TeContext} (range : TeRange) (buf : List Int32)
    (k : Nat) (hr : ctx.Ready) (hs : 0 ≤ range.start.toInt) (he : range.stop = range.start)
    (hn : range.start.toInt ≤ ctx.nTokens) (hk : 0 < k) (hb : k ≤ buf.length) :
    ∃ c, teReplaceTokens M ctx range (some buf) k = some (.ok, c) ∧
      c.view = ctx.view.take range.start.toInt.toNat ++ buf.take k ++
        ctx.view.drop range.start.toInt.toNat ∧ c.log = ctx.log := by
  obtain ⟨c, h, hE, -, hv⟩ :=
    teReplaceTokens_spec M range buf k hr hs (by rw [he]) (by rw [he]; exact hn) hk hb
  rw [if_neg (by rw [he]; exact lt_irrefl _)] at h
  exact ⟨c, h, by rw [hv, he], hE.log_eq⟩

/-- A fresh editor holding `[0, 1, 2]`: replacing the empty range `[0, 0)` by `[7]` returns
`TE_OK` and changes the buffer to `[7, 0, 1, 2]`, but records nothing, so the history, its tail
and the redo stack are those the insertion left. -/
theorem teReplaceTokens_empty_range_unlogged (lctx : LlamaContext) :
    ∃ ctx0 ctx1 ctx2, (teInit lctx []).1 = some ctx0 ∧
      teInsertTokens M ctx0 0 0 (some [0, 1, 2]) 3 = some (.ok, ctx1) ∧
      teReplaceTokens M ctx1 ⟨0, 0, 0⟩ (some [7]) 1 = some (.ok, ctx2) ∧
      ctx2.view = [7, 0, 1, 2] ∧ ctx2.history = ctx1.history ∧
      ctx2.historyTail = ctx1.historyTail ∧ ctx2.redoStack = ctx1.redoStack := by
  obtain ⟨ctx0, ctx1, h0, h1, hr1, -, hn1, hv1, -⟩ := teInsertTokens_fresh M lctx
  obtain ⟨ctx2, h2, hv2, hl⟩ := teReplaceTokens_empty_unlogged M ⟨0, 0, 0⟩ [7] 1 hr1 (by decide) rfl
    (by rw [hn1]; decide) (by decide) (by decide)
  exact ⟨ctx0, ctx1, ctx2, h0, h1, h2, by rw [hv2, hv1]; rfl, congrArg TeLog.history hl,
    congrArg TeLog.historyTail hl, congrArg TeLog.redoStack hl⟩

/-- Two insertions into a fresh editor record two entries; `te_set_history_limit(1)` trims
nothing, so the reached editor holds two entries over a limit of 1 until the next record. -/
theorem teSetHistoryLimit_keeps_past_limit :
    ∃ w, TeReachable default ⟨[], []⟩ w ∧ w.ctx.historyLimit = 1 ∧ teGetHistoryCount w.ctx = 2 := by
  obtain ⟨ctx0, h0, ha0⟩ := teInit_allocOk ⟨[], []⟩ (List.not_mem_nil true)
  have hi := teInit_initial h0
  obtain ⟨ctx1, h1, hl1, hr1, -⟩ := teInsertTokens_records default 0 0 [0, 1, 2] 3
    ⟨hi.wf, hi.writable, ha0⟩ hi.recording (by decide) (by simp [hi.nTokens_eq]) (by decide)
    (by decide)
  have r1 : TeReachable default ⟨[], []⟩ ⟨ctx1, []⟩ :=
    .step (.insertTokens 0 0 (some [0, 1, 2]) 3) (.init h0) (by simp only [teStep, h1, Option.map_some'])
  obtain ⟨ctx2, h2, hl2, -, -⟩ := teInsertTokens_records default 0 0 [3] 1 hr1 (r1.logInv default).2
    (by decide) (by simp) (by decide) (by decide)
  have r2 : TeReachable default ⟨[], []⟩ ⟨ctx2, []⟩ :=
    .step (.insertTokens 0 0 (some [3]) 1) r1 (by simp only [teStep, h2, Option.map_some'])
  have hh1 : ctx1.history.length = 1 := by
    rw [show ctx1.history = _ from congrArg TeLog.history hl1]
    simp [TeLog.record, TeContext.log, hi.history_eq, hi.historyTail_eq, hi.historyLimit_eq,
      teKeepRecent, teHistoryDefaultLimit]
  have hlim : ctx1.historyLimit = teHistoryDefaultLimit :=
    (congrArg TeLog.historyLimit hl1).trans hi.historyLimit_eq
  have hh2 : ctx2.history.length = 2 := by
    rw [show ctx2.history = _ from congrArg TeLog.history hl2, TeLog.record_history (r1.logInv default).1]
    simp [teKeepRecent, TeContext.log, hlim, teHistoryDefaultLimit, hh1]
  exact ⟨_, .step (.setHistoryLimit 1) r2 rfl, rfl, hh2⟩

end TokenEditor
