import TokenEditor.TEMachine

/-! Sequence ids over runs. `te_create_sequence` hands out one past the largest active id in
signed 32-bit arithmetic, so a round of creating a sequence and deleting the older one moves the
only active id up by one; after `2^31 - 1` rounds from `te_init` the next id wraps to `-2^31`. -/

namespace TokenEditor

section Round
variable {ctx : TeContext} {k : Int32} {rest : List Int32}

/-- With one active id `k ≥ 0`, `te_create_sequence` lists `k + 1` after it. -/
theorem teCreateSequence_one (hn : ctx.nSequences = 1) (ha : ctx.activeSequences = k :: k :: rest)
    (hk : 0 ≤ k.toInt) :
    teCreateSequence ctx =
      some (k + 1, { ctx with activeSequences := k :: (k + 1) :: rest, nSequences := 2 }) := by
  simp [teCreateSequence, hn, ha, blockRead, blockWrite, hk]

/-- Deleting the first of two active ids shifts the second into its slot. -/
theorem teDeleteSequence_first {k' : Int32} (hn : ctx.nSequences = 2)
    (ha : ctx.activeSequences = k :: k' :: rest) :
    teDeleteSequence ctx k = some (.ok,
      { ctx with activeSequences := k' :: k' :: rest, nSequences := 1
                 llamaCtx := kvSeqRm ctx.llamaCtx k (-1) (-1) }) := by
  simp [teDeleteSequence, hn, ha, blockRead, blockMove, blockWrite, List.indexOf?]

end Round

/-- The calls on sequences: `te_create_sequence`, `te_delete_sequence`, `te_copy_sequence` and
`te_fork_sequence`. -/
def TeCall.onSequences : TeCall → Bool
  | .createSequence | .deleteSequence _ | .copySequence _ _ | .forkSequence _ => true
  | _ => false

variable (M : LlamaModel)

/-- The editors a client reaches from `te_init` by calls on sequences alone. -/
inductive TeSeqReachable (lctx : LlamaContext) : TeWorld → Prop
  | init {heap : List Bool} {ctx : TeContext} (h : (teInit lctx heap).1 = some ctx) :
      TeSeqReachable lctx ⟨ctx, []⟩
  | step {w w' : TeWorld} (c : TeCall) (hc : c.onSequences) (hw : TeSeqReachable lctx w)
      (h : teStep M w c = some w') : TeSeqReachable lctx w'

theorem TeSeqReachable.reachable {lctx : LlamaContext} {w : TeWorld} (h : TeSeqReachable M lctx w) :
    TeReachable M lctx w := by
  induction h with
  | init h => exact .init h
  | step c _ _ h ih => exact .step c ih h

variable {M} {lctx : LlamaContext} {ctx : TeContext} {k : Int32} {rest : List Int32}

/-- A round of `te_create_sequence` and `te_delete_sequence` of the older id moves the only
active id `k ≥ 0` to `k + 1`. -/
theorem TeSeqReachable.round (hw : TeSeqReachable M lctx ⟨ctx, []⟩) (hn : ctx.nSequences = 1)
    (ha : ctx.activeSequences = k :: k :: rest) (hk : 0 ≤ k.toInt) :
    ∃ ctx', TeSeqReachable M lctx ⟨ctx', []⟩ ∧ ctx'.nSequences = 1 ∧
      ctx'.activeSequences = (k + 1) :: (k + 1) :: rest := by
  have h1 : TeSeqReachable M lctx
      ⟨{ ctx with activeSequences := k :: (k + 1) :: rest, nSequences := 2 }, []⟩ :=
    .step .createSequence rfl hw (congrArg (Option.map _) (teCreateSequence_one hn ha hk))
  exact ⟨_, .step (.deleteSequence k) rfl h1 (congrArg (Option.map _) (teDeleteSequence_first rfl rfl)),
    rfl, rfl⟩

/-- `j` rounds, while the id stays below `2^31`. -/
theorem TeSeqReachable.rounds (j : Nat) : ∀ {ctx : TeContext} {k : Int32},
    TeSeqReachable M lctx ⟨ctx, []⟩ → ctx.nSequences = 1 → ctx.activeSequences = k :: k :: rest →
    0 ≤ k.toInt → k.toInt + j < 2^31 →
    ∃ ctx', TeSeqReachable M lctx ⟨ctx', []⟩ ∧ ctx'.nSequences = 1 ∧
      ctx'.activeSequences = (k + BitVec.ofNat 32 j) :: (k + BitVec.ofNat 32 j) :: rest := by
  induction j with
  | zero => exact fun hw hn ha _ _ => ⟨_, hw, hn, by simpa using ha⟩
  | succ j ih =>
    intro ctx k hw hn ha hk hj
    obtain ⟨ctx1, hw1, hn1, ha1⟩ := hw.round hn ha hk
    have hk1 := toInt_add_one (x := k) (by omega)
    obtain ⟨ctx', hw', hn', ha'⟩ := ih hw1 hn1 ha1 (by omega) (by omega)
    have e : k + 1 + BitVec.ofNat 32 j = k + BitVec.ofNat 32 (j + 1) := by
      rw [BitVec.ofNat_add]; ac_rfl
    exact ⟨ctx', hw', hn', by rw [ha', e]⟩

variable (M)

/-- From `te_init`, `2^31 - 1` rounds of creating a sequence and deleting the older one leave
`2^31 - 1` as the only active id; the next `te_create_sequence` returns `-2^31` and lists it. -/
theorem teSeqReachable_createSequence_wraps (lctx : LlamaContext) :
    ∃ ctx id ctx', TeSeqReachable M lctx ⟨ctx, []⟩ ∧ teCreateSequence ctx = some (id, ctx') ∧
      id.toInt = -2^31 ∧ TeSeqReachable M lctx ⟨ctx', []⟩ ∧
      (ctx'.activeSequences.take ctx'.nSequences).map BitVec.toInt = [2^31 - 1, -2^31] := by
  obtain ⟨ctx0, h0⟩ : ∃ c, (teInit lctx []).1 = some c := ⟨_, rfl⟩
  have hn0 : ctx0.nSequences = 1 := by cases h0; rfl
  have ha0 : ctx0.activeSequences = 0 :: 0 :: List.replicate 14 0 := by cases h0; rfl
  obtain ⟨ctx, hw, hn, ha⟩ := TeSeqReachable.rounds (2^31 - 1) (.init h0) hn0 ha0 le_rfl (by decide)
  have hc := teCreateSequence_one hn ha (by decide)
  exact ⟨ctx, _, _, hw, hc, by decide, .step .createSequence rfl hw (congrArg (Option.map _) hc), rfl⟩

end TokenEditor
