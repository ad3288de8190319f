import TokenEditor.RLLMComplete

/-! The prompt helpers and the refinement loop of `recursive_llm.cpp`. `rllm_append_prompt`
tokenizes without a BOS and inserts at the end of the buffer; `rllm_get_text` detokenizes the
whole buffer; `rllm_refine` alternates completions with three appended prompts until the
client's callback stops it or the iterations run out, and then hands back what `te_detokenize`
made of the whole buffer. -/

namespace TokenEditor

section Prompt
variable (M : LlamaModel)

/-- `rllm_append_prompt`: the text tokenized without a BOS into `len + 1` slots and inserted at
`n_tokens`. -/
def rllmAppendPrompt (c : RllmContext) (text : List UInt8) : Option (RllmError × RllmContext) :=
  match c.tokenEditor with
  | none => some (.errorInvalidContext, c)
  | some te => do
    let (ok, te) := teMalloc te
    let c := { c with tokenEditor := some te }
    if !ok then some (.errorMemory, c) else
    let (err, toks) := teTokenize M text (text.length + 1) false
    if err ≠ .ok then some (.errorMemory, c) else do
    let (err, te) ← teInsertTokens M te (toPos te.nTokens) 0 (some toks) toks.length
    some (if err = .ok then .ok else .errorMemory, { c with tokenEditor := some te })

/-- The three appends between two rounds of `rllm_refine`; the prompt is read up to its
terminating zero. -/
def rllmRefineAppend (c : RllmContext) (refinePrompt : List UInt8) : Option RllmContext := do
  let (_, c) ← rllmAppendPrompt M c (asciiBytes "\n\n")
  let (_, c) ← rllmAppendPrompt M c (refinePrompt.takeWhile (· != 0))
  let (_, c) ← rllmAppendPrompt M c (asciiBytes "\n")
  some c

/-- The loop of `rllm_refine` at iteration `iter` with `n` iterations left. `os iter` answers
the `iter`-th completion and `cont iter` judges its output (`none` is a `NULL` callback). The
result is `none` when the loop ends without copying, else the bytes `te_detokenize` wrote and
`*result_len`; `memcpy` copies `min(output_len, *result_len)` bytes of `output`, and any past
the written ones are the uninitialised rest of that block. -/
def rllmRefineLoop (os : Nat → RllmOracle) (cont : Option (Nat → List UInt8 → Bool))
    (refinePrompt : List UInt8) (maxIterations resultLen : Nat) (params : RllmCompletionParams) :
    Nat → Nat → RllmContext → Option (RllmError × Option (List UInt8 × Nat) × RllmContext)
  | 0, _, c => some (.ok, none, c)
  | n + 1, iter, c => do
    let (err, c) ← rllmComplete M (os iter) c params
    if err ≠ .ok then some (err, none, c) else do
    let te ← c.tokenEditor
    let (ok, te) := teMalloc te
    let c := { c with tokenEditor := some te }
    if !ok then some (.errorMemory, none, c) else do
    let toks ← blockRead te.tokens 0 te.nTokens
    let (_, output) := teDetokenize M toks resultLen
    let outputLen := teDetokenizeOutLen M toks resultLen
    if !(cont.map fun f => f iter output).getD true ∨ iter = maxIterations - 1 then
      some (.ok, some (output.take (min outputLen resultLen), outputLen), c) else do
    let c ← rllmRefineAppend M c refinePrompt
    rllmRefineLoop os cont refinePrompt maxIterations resultLen params n (iter + 1) c

/-- `rllm_refine`, with the completion parameters of the node's configuration. -/
def rllmRefine (os : Nat → RllmOracle) (c : RllmContext) (refinePrompt : List UInt8)
    (maxIterations : Nat) (cont : Option (Nat → List UInt8 → Bool)) (resultLen : Nat) :
    Option (RllmError × Option (List UInt8 × Nat) × RllmContext) :=
  match c.tokenEditor with
  | none => some (.errorInvalidContext, none, c)
  | some _ =>
    rllmRefineLoop M os cont refinePrompt maxIterations resultLen c.config.completion
      maxIterations 0 c

end Prompt

/-- The tokens one round of appends adds: each text tokenized without a BOS. -/
def rllmRefineTokens (M : LlamaModel) (refinePrompt : List UInt8) : List Int32 :=
  M.tokenize (asciiBytes "\n\n") false ++ M.tokenize (refinePrompt.takeWhile (· != 0)) false ++
    M.tokenize (asciiBytes "\n") false

/-- Each appended text tokenizes into its `len + 1` slots. -/
structure RllmRefineFits (M : LlamaModel) (refinePrompt : List UInt8) : Prop where
  sep : (M.tokenize (asciiBytes "\n\n") false).length ≤ (asciiBytes "\n\n").length + 1
  prompt : (M.tokenize (refinePrompt.takeWhile (· != 0)) false).length ≤
    (refinePrompt.takeWhile (· != 0)).length + 1
  newline : (M.tokenize (asciiBytes "\n") false).length ≤ (asciiBytes "\n").length + 1

section Append
variable (M : LlamaModel)

theorem rllmSampledPrefix_length_le (o : RllmOracle) (i n : Nat) :
    (rllmSampledPrefix M o i n).length ≤ n :=
  ((List.takeWhile_prefix _).length_le).trans (by simp)

/-- Inserting nothing at the end of a writable editor changes nothing. -/
theorem teInsertTokens_nil_end {ctx : TeContext} (hro : ctx.readonly = false)
    (hn : ctx.nTokens < 2^31) : teInsertTokens M ctx (toPos ctx.nTokens) 0 (some []) 0 = some (.ok, ctx) := by
  have hpos : (toPos ctx.nTokens).toInt = ctx.nTokens := toInt_toPos hn
  unfold teInsertTokens
  rw [if_neg (by simp [hro]), if_neg (by rw [toSizeT_of_nonneg (by omega), hpos]; omega)]
  rfl

/-- `rllm_append_prompt` on a ready editor whose text fits its slots appends the text's tokens. -/
theorem rllmAppendPrompt_ready {c : RllmContext} {te : TeContext} {text : List UInt8}
    (hte : c.tokenEditor = some te) (hr : te.Ready)
    (hlen : (M.tokenize text false).length ≤ text.length + 1) (hn : te.nTokens < 2^31) :
    ∃ te', rllmAppendPrompt M c text = some (.ok, { c with tokenEditor := some te' }) ∧
      te'.Ready ∧ te'.view = te.view ++ M.tokenize text false := by
  obtain ⟨te1, hm, hr1, hc1⟩ := teMalloc_ready hr
  have hn1 : te1.nTokens < 2^31 := by rw [hc1.nTokens_eq]; exact hn
  by_cases hts : M.tokenize text false = []
  · refine ⟨te1, ?_, hr1, by rw [hts, List.append_nil, hc1.view_eq]⟩
    simp only [rllmAppendPrompt, hte, hm, teTokenize, if_neg (not_lt.mpr hlen), hts,
      List.length_nil, Nat.not_lt_zero, teInsertTokens_nil_end M hr1.writable hn1, Option.bind_eq_bind,
      Option.some_bind, Bool.not_true, Bool.false_eq_true, if_false, ne_eq, not_true_eq_false,
      if_true]
  · have hpos : (toPos te1.nTokens).toInt = te1.nTokens := toInt_toPos hn1
    obtain ⟨c3, hins, hr3, -, hv3, -⟩ := teInsertTokens_ready M (toPos te1.nTokens) 0 _ hr1
      (by omega) (by simp [hpos]) hts
    refine ⟨c3, ?_, hr3, ?_⟩
    · simp only [rllmAppendPrompt, hte, hm, hins, teTokenize, if_neg (not_lt.mpr hlen),
        Option.bind_eq_bind, Option.some_bind, Bool.not_true, Bool.false_eq_true, if_false, ne_eq,
        not_true_eq_false, if_true]
    · rw [hv3, hpos, Int.toNat_ofNat, List.take_of_length_le hr1.wf.length_view.le,
        List.drop_of_length_le hr1.wf.length_view.le, List.append_nil, hc1.view_eq]

/-- The three appends of a round on a ready editor add the round's tokens. -/
theorem rllmRefineAppend_ready {c : RllmContext} {te : TeContext} {refinePrompt : List UInt8}
    (hte : c.tokenEditor = some te) (hr : te.Ready) (hfit : RllmRefineFits M refinePrompt)
    (hn : te.nTokens + (rllmRefineTokens M refinePrompt).length < 2^31) :
    ∃ te', rllmRefineAppend M c refinePrompt = some { c with tokenEditor := some te' } ∧
      te'.Ready ∧ te'.view = te.view ++ rllmRefineTokens M refinePrompt := by
  simp only [rllmRefineTokens, List.length_append] at hn
  obtain ⟨t1, h1, hr1, hv1⟩ := rllmAppendPrompt_ready M hte hr hfit.sep (by omega)
  have hl1 : t1.nTokens = te.nTokens + (M.tokenize (asciiBytes "\n\n") false).length := by
    rw [← hr1.wf.length_view, hv1, List.length_append, hr.wf.length_view]
  obtain ⟨t2, h2, hr2, hv2⟩ := rllmAppendPrompt_ready M (c := { c with tokenEditor := some t1 }) rfl
    hr1 hfit.prompt (by omega)
  have hl2 := congrArg List.length hv2
  rw [List.length_append, hr2.wf.length_view, hr1.wf.length_view] at hl2
  obtain ⟨t3, h3, hr3, hv3⟩ := rllmAppendPrompt_ready M (c := { c with tokenEditor := some t2 }) rfl
    hr2 hfit.newline (by omega)
  refine ⟨t3, ?_, hr3, by rw [hv3, hv2, hv1, rllmRefineTokens]; simp only [List.append_assoc]⟩
  simp only [rllmRefineAppend, h1, h2, h3, Option.bind_eq_bind, Option.some_bind]

/-- What `rllm_refine` copies out: the bytes `te_detokenize` wrote, and its `*out_len`. -/
theorem teDetokenize_take_outLen (ts : List Int32) (len : Nat) :
    (teDetokenize M ts len).2.take (min (teDetokenizeOutLen M ts len) len) =
      (teDetokenize M ts len).2 := by
  have hle : (teDetokenize M ts len).2.length ≤ len :=
    (teDetokenize_go_spec M len ts [] (Nat.zero_le _)).2.2.2
  refine List.take_of_length_le (le_min ?_ hle)
  unfold teDetokenizeOutLen
  rcases h : teDetokenize M ts len with ⟨e, out⟩
  rw [h] at hle
  cases e <;> simp [hle]

end Append

section Refine
variable (M : LlamaModel) (os : Nat → RllmOracle) (cont : Option (Nat → List UInt8 → Bool))
  (refinePrompt : List UInt8) (maxIterations resultLen : Nat) (params : RllmCompletionParams)

/-- One round of `rllm_refine` whose completion returned `RLLM_OK`: stop on the callback's
refusal or at the last iteration, else append and go on. -/
theorem rllmRefineLoop_succ_ok {n iter : Nat} {c c1 : RllmContext} {te1 te2 : TeContext}
    {v : List Int32} (h1 : rllmComplete M (os iter) c params = some (.ok, c1))
    (h2 : c1.tokenEditor = some te1) (hm : teMalloc te1 = (true, te2))
    (hread : blockRead te2.tokens 0 te2.nTokens = some v) :
    rllmRefineLoop M os cont refinePrompt maxIterations resultLen params (n + 1) iter c =
      if (!(cont.map fun f => f iter (teDetokenize M v resultLen).2).getD true) = true ∨
          iter = maxIterations - 1 then
        some (.ok, some ((teDetokenize M v resultLen).2.take
          (min (teDetokenizeOutLen M v resultLen) resultLen), teDetokenizeOutLen M v resultLen),
          { c1 with tokenEditor := some te2 })
      else (rllmRefineAppend M { c1 with tokenEditor := some te2 } refinePrompt).bind
        (rllmRefineLoop M os cont refinePrompt maxIterations resultLen params n (iter + 1)) := by
  simp only [rllmRefineLoop, h1, h2, hm, hread, Option.bind_eq_bind, Option.some_bind, ne_eq,
    not_true_eq_false, if_false, Bool.not_true, Bool.false_eq_true]

/-- The tokens the rounds `iter, …, iter + j - 1` that went on leave behind. -/
def rllmRefineRounds (iter j : Nat) : List Int32 :=
  (List.range' iter j).flatMap fun i =>
    rllmSampledPrefix M (os i) 0 params.nPredict ++ rllmRefineTokens M refinePrompt

theorem rllmRefineRounds_succ (iter j : Nat) :
    rllmRefineRounds M os refinePrompt params iter (j + 1) =
      rllmSampledPrefix M (os iter) 0 params.nPredict ++ rllmRefineTokens M refinePrompt ++
        rllmRefineRounds M os refinePrompt params (iter + 1) j := by
  simp only [rllmRefineRounds, List.range'_succ, List.flatMap_cons]

/-- The loop of `rllm_refine` from iteration `iter` with `n ≥ 1` rounds left, on a node that is
not running with a ready editor and room for every round: it returns after `j + 1 ≤ n`
completions. The first `j` went on, each leaving its whole sampled prefix and the appended
prompts; the last left a prefix `g` of its samples. Its error is returned as is; on `RLLM_OK` it
sampled to the end, the callback refused its output or the iterations ran out, and the result is
what `te_detokenize` writes and reports for the whole buffer. -/
theorem rllmRefineLoop_spec (hfit : RllmRefineFits M refinePrompt) : ∀ n iter (c : RllmContext)
    (te : TeContext), 0 < n → iter + n = maxIterations → c.state ≠ .running →
    c.tokenEditor = some te → te.Ready →
    te.nTokens + n * (params.nPredict + (rllmRefineTokens M refinePrompt).length) < 2^31 →
    ∃ err res c' te' j g,
      rllmRefineLoop M os cont refinePrompt maxIterations resultLen params n iter c =
        some (err, res, c') ∧ c'.tokenEditor = some te' ∧ te'.Ready ∧ j < n ∧
      te'.view = te.view ++ rllmRefineRounds M os refinePrompt params iter j ++ g ∧
      g <+: rllmSampledPrefix M (os (iter + j)) 0 params.nPredict ∧
      (err = .ok → g = rllmSampledPrefix M (os (iter + j)) 0 params.nPredict ∧
        c'.state = .complete ∧
        ((cont.map fun f => f (iter + j) (teDetokenize M te'.view resultLen).2).getD true = false ∨
          iter + j = maxIterations - 1) ∧
        res = some ((teDetokenize M te'.view resultLen).2, teDetokenizeOutLen M te'.view resultLen)) ∧
      (err ≠ .ok → res = none ∧ c'.state = .error ∧ (err = .errorTimeout ∨ err = .errorModel)) := by
  intro n
  induction n with
  | zero => intro _ _ _ h0; exact absurd h0 (lt_irrefl 0)
  | succ n ih =>
    intro iter c te _ hiter hs hte hr hroom
    rw [Nat.succ_mul] at hroom
    obtain ⟨err, c1, te1, p, hcomp, htc1, hr1, hp, hv1, -, herr, hok, hnok⟩ :=
      rllmComplete_spec M (os iter) c params hs hte hr (by omega)
    by_cases he : err = .ok
    · subst he
      obtain ⟨hst1, hpfull⟩ := hok rfl
      obtain ⟨te2, hm, hr2, hc2⟩ := teMalloc_ready hr1
      have hv2 : te2.view = te.view ++ p := by rw [hc2.view_eq, hv1]
      rw [rllmRefineLoop_succ_ok M os cont refinePrompt maxIterations resultLen params hcomp htc1 hm
        (blockRead_view hr2.wf)]
      by_cases hstop : (!(cont.map fun f => f iter (teDetokenize M te2.view resultLen).2).getD true)
          = true ∨ iter = maxIterations - 1
      · rw [if_pos hstop, teDetokenize_take_outLen]
        refine ⟨.ok, _, _, te2, 0, p, rfl, rfl, hr2, Nat.succ_pos _, by simpa [rllmRefineRounds] using hv2,
          hp, fun _ => ⟨hpfull, hst1, ?_, rfl⟩, fun h => absurd rfl h⟩
        rcases hstop with h | h
        · exact .inl (by simpa using h)
        · exact .inr h
      · rw [if_neg hstop]
        have hn : 0 < n := by omega
        have hpl : p.length ≤ params.nPredict :=
          hp.length_le.trans (rllmSampledPrefix_length_le M _ _ _)
        have hl2 : te2.nTokens = te.nTokens + p.length := by
          rw [← hr2.wf.length_view, hv2, List.length_append, hr.wf.length_view]
        obtain ⟨te3, happ, hr3, hv3⟩ := rllmRefineAppend_ready M
          (c := { c1 with tokenEditor := some te2 }) rfl hr2 hfit (by omega)
        have hl3 : te3.nTokens = te2.nTokens + (rllmRefineTokens M refinePrompt).length := by
          rw [← hr3.wf.length_view, hv3, List.length_append, hr2.wf.length_view]
        rw [happ, Option.some_bind]
        obtain ⟨err, res, c', te', j, g, hloop, htc', hr', hj, hv', hg, hok', hnok'⟩ :=
          ih (iter + 1) { c1 with tokenEditor := some te3 } te3 hn (by omega) (by rw [hst1]; nofun) rfl hr3
            (by omega)
        rw [show iter + 1 + j = iter + (j + 1) by omega] at hg hok'
        refine ⟨err, res, c', te', j + 1, g, hloop, htc', hr', by omega, ?_, hg, hok', hnok'⟩
        rw [hv', hv3, hv2, rllmRefineRounds_succ, hpfull]
        simp only [List.append_assoc]
    · rw [rllmRefineLoop, hcomp]
      simp only [Option.bind_eq_bind, Option.some_bind, if_pos he]
      refine ⟨err, none, c1, te1, 0, p, rfl, htc1, hr1, Nat.succ_pos _,
        by simpa [rllmRefineRounds] using hv1, hp, fun h => absurd h he,
        fun _ => ⟨rfl, hnok he, herr.resolve_left he⟩⟩

/-- `rllm_refine` with at least one iteration, on a node that is not running with a ready
editor, appended texts that fit their slots and room for every round: it returns after
`j + 1 ≤ max_iterations` completions. Each of the first `j` left its whole sampled prefix and
the three appended prompts, the last a prefix `g` of its samples. A failed completion's error is
returned as is with nothing copied; on `RLLM_OK` the last completion sampled to the end, the
callback refused its output or the iterations ran out, and `result` and `*result_len` are what
`te_detokenize` writes and reports for the whole buffer. -/
theorem rllmRefine_rounds {c : RllmContext} {te : TeContext} (hfit : RllmRefineFits M refinePrompt)
    (hmax : 0 < maxIterations) (hs : c.state ≠ .running) (hte : c.tokenEditor = some te)
    (hr : te.Ready) (hroom : te.nTokens + maxIterations *
      (c.config.completion.nPredict + (rllmRefineTokens M refinePrompt).length) < 2^31) :
    ∃ err res c' te' j g,
      rllmRefine M os c refinePrompt maxIterations cont resultLen = some (err, res, c') ∧
      c'.tokenEditor = some te' ∧ te'.Ready ∧ j < maxIterations ∧
      te'.view = te.view ++ rllmRefineRounds M os refinePrompt c.config.completion 0 j ++ g ∧
      g <+: rllmSampledPrefix M (os j) 0 c.config.completion.nPredict ∧
      (err = .ok → g = rllmSampledPrefix M (os j) 0 c.config.completion.nPredict ∧
        c'.state = .complete ∧
        ((cont.map fun f => f j (teDetokenize M te'.view resultLen).2).getD true = false ∨
          j = maxIterations - 1) ∧
        res = some ((teDetokenize M te'.view resultLen).2, teDetokenizeOutLen M te'.view resultLen)) ∧
      (err ≠ .ok → res = none ∧ c'.state = .error ∧ (err = .errorTimeout ∨ err = .errorModel)) := by
  obtain ⟨err, res, c', te', j, g, h, htc, hr', hj, hv, hg, hok, hnok⟩ :=
    rllmRefineLoop_spec M os cont refinePrompt maxIterations resultLen c.config.completion hfit
      maxIterations 0 c te hmax (Nat.zero_add _) hs hte hr hroom
  rw [Nat.zero_add] at hg hok
  exact ⟨err, res, c', te', j, g, by rw [rllmRefine, hte]; exact h, htc, hr', hj, hv, hg, hok, hnok⟩

end Refine

/-- Three rounds on a fresh editor whose model reads every text as the token 1 and samples 7,
with two predictions a round and no callback: the first two rounds go on and append the three
prompts, the third is the last iteration, and the buffer holds all three completions. -/
theorem rllmRefine_rounds_three :
    let M₁ : LlamaModel := { (default : LlamaModel) with tokenize := fun _ _ => [1] }
    ∃ (c : RllmContext) (te : TeContext), c.tokenEditor = some te ∧ te.view = [] ∧
      ∃ res c' te', rllmRefine M₁ (fun _ => ⟨fun _ => 0, fun _ => 7⟩) c [0x61] 3 none 64 =
        some (.ok, res, c') ∧ c'.tokenEditor = some te' ∧
        te'.view = [7, 7, 1, 1, 1, 7, 7, 1, 1, 1, 7, 7] := by
  intro M₁
  obtain ⟨te0, h0, ha⟩ := teInit_allocOk ⟨[], []⟩ (List.not_mem_nil true)
  have hi := teInit_initial h0
  have hv0 : te0.view = [] := by rw [TeContext.view, hi.nTokens_eq, List.take_zero]
  let cfg : RllmCtxConfig := { (default : RllmCtxConfig) with completion := ⟨2, false, 0⟩ }
  let c : RllmContext := { (default : RllmContext) with tokenEditor := some te0, config := cfg }
  obtain ⟨err, res, c', te', j, g, h, htc, -, -, hv, -, hok, -⟩ :=
    rllmRefine_rounds M₁ (fun _ => ⟨fun _ => 0, fun _ => 7⟩) none [0x61] 3 64 (c := c)
    ⟨by decide, by decide, by decide⟩ (by decide) nofun rfl ⟨hi.wf, hi.writable, ha⟩
    (by rw [hi.nTokens_eq]
        exact (by decide : 0 + 3 * (2 + (rllmRefineTokens M₁ [0x61]).length) < 2^31))
  have he : err = .ok := by
    have : (rllmRefine M₁ (fun _ => ⟨fun _ => 0, fun _ => 7⟩) c [0x61] 3 none 64).map (·.1) =
        some .ok := by
      cases h0; decide!
    rw [h] at this
    exact Option.some_inj.mp this
  subst he
  obtain ⟨hg', -, hj', -⟩ := hok rfl
  have hj2 : j = 2 := by
    rcases hj' with h | h
    · exact absurd h Bool.noConfusion
    · exact h
  subst hj2
  exact ⟨c, te0, rfl, hv0, res, c', te', h, htc, by rw [hv, hv0, hg']; rfl⟩

end TokenEditor
