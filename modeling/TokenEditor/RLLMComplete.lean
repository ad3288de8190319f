import TokenEditor.RLLMMachine
import TokenEditor.TEBufferLaws
import TokenEditor.TECoherence
import TokenEditor.TEFind

/-! The generation driver of `recursive_llm.cpp`. `rllm_complete` samples up to `n_predict`
tokens, appending each to the node's editor and decoding it; the clock and the sampler are
oracles read by call count, while allocations and decodes draw from the editor's own outcome
lists. The evaluation helpers run the driver on a re-prompted editor: `rllm_eval_in_child`
re-prompts the parent itself, and `rllm_self_eval` restores only the snapshot's buffer and
cache, so the log keeps what the evaluation recorded. -/

namespace TokenEditor

/-- The runtime's answers to the driver: the `n`-th reading of `rllm_get_time_ms` and the token
`llama_sampling_sample` returns at iteration `i`. -/
structure RllmOracle where
  clock : Nat → BitVec 64
  sampler : Nat → Int32

section Driver
variable (M : LlamaModel) (o : RllmOracle)

/-- The loop of `rllm_complete` at iteration `i` with `n` iterations left, `gen` tokens
generated and `tick` clock readings taken: the outcome, the editor, the count and the readings.
`ok` is both the loop's end and the break on an end-of-generation token. -/
def rllmCompleteLoop (timeoutMs : Nat) (startTime : BitVec 64) :
    Nat → Nat → TeContext → Nat → Nat → Option (RllmError × TeContext × Nat × Nat)
  | 0, _, te, gen, tick => some (.ok, te, gen, tick)
  | n + 1, i, te, gen, tick =>
    if 0 < timeoutMs ∧ timeoutMs < (o.clock tick - startTime).toNat then
      some (.errorTimeout, te, gen, tick + 1) else
    let tick := if 0 < timeoutMs then tick + 1 else tick
    let (ok, te) := teMalloc te
    if !ok then some (.errorMemory, te, gen, tick) else
    let next := o.sampler i
    if M.tokenIsEog next then some (.ok, te, gen, tick) else do
    let (_, te) ← teInsertTokens M te (toPos te.nTokens) 0 (some [next]) 1
    let (ok, lctx) := llamaDecode te.llamaCtx [(next, toPos ((te.nTokens + 2^64 - 1) % 2^64), 0)]
    let te := { te with llamaCtx := lctx }
    if !ok then some (.errorModel, te, gen + 1, tick) else
    rllmCompleteLoop timeoutMs startTime n (i + 1) te (gen + 1) tick

/-- `rllm_complete`: the outcome and the node. The first `te_sync_kv_cache`'s result is
ignored, `llama_sampling_init` is one allocation, and the callbacks only observe. -/
def rllmComplete (c : RllmContext) (params : RllmCompletionParams) :
    Option (RllmError × RllmContext) :=
  if c.state = .running then some (.errorContextBusy, c) else
  match c.tokenEditor with
  | none => some (.errorInvalidContext, c)
  | some te => do
    let start := o.clock 0
    let c := { c with state := .running, startTime := start.toNat, tokensGenerated := 0 }
    let (_, te) ← teSyncKvCache te
    let (ok, te) := teMalloc te
    if !ok then some (.errorMemory, { c with state := .error, tokenEditor := some te }) else do
    let (err, te, gen, tick) ←
      rllmCompleteLoop M o params.timeoutMs start params.nPredict 0 te 0 1
    let c := { c with tokenEditor := some te, tokensGenerated := gen }
    if err = .ok then some (.ok, { c with state := .complete, endTime := (o.clock tick).toNat })
    else some (err, { c with state := .error })

/-- `rllm_complete_sync` into a caller buffer of `outLen` bytes: the outcome, the bytes written,
`*out_len` and the node. Only the tokens past the count before the call are detokenized. -/
def rllmCompleteSync (c : RllmContext) (params : RllmCompletionParams) (outLen : Nat) :
    Option (RllmError × List UInt8 × Nat × RllmContext) := do
  let start := (c.tokenEditor.map TeContext.nTokens).getD 0
  let (err, c) ← rllmComplete M o c params
  if err ≠ .ok then some (err, [], outLen, c) else
  match c.tokenEditor with
  | some te =>
    if start < te.nTokens then do
      let gen ← blockRead te.tokens start (te.nTokens - start)
      let (e, out) := teDetokenize M gen outLen
      some (if e = .ok then .ok else .errorMemory, out, teDetokenizeOutLen M gen outLen, c)
    else some (.ok, [], 0, c)
  | none => some (.ok, [], 0, c)

/-- `rllm_set_prompt`: `te_clear`, whose result is ignored, then the prompt tokenized with a
BOS into `len + 1` slots and inserted at 0. -/
def rllmSetPrompt (c : RllmContext) (prompt : List UInt8) : Option (RllmError × RllmContext) :=
  match c.tokenEditor with
  | none => some (.errorInvalidContext, c)
  | some te => do
    let (_, te) ← teClear te 0
    let (ok, te) := teMalloc te
    let c := { c with tokenEditor := some te }
    if !ok then some (.errorMemory, c) else
    let (err, toks) := teTokenize M prompt (prompt.length + 1) true
    if err ≠ .ok then some (.errorMemory, c) else do
    let (err, te) ← teInsertTokens M te 0 0 (some toks) toks.length
    some (if err = .ok then .ok else .errorMemory, { c with tokenEditor := some te })

/-- The bytes of an ASCII literal. -/
def asciiBytes (s : String) : List UInt8 := s.toList.map fun ch => ch.toNat.toUInt8

/-- The prompt `rllm_self_eval` formats: `%.*s` and `%s` stop at a zero byte, and the buffer of
`text_size + strlen(eval_prompt) + 256` bytes always holds the whole text. -/
def rllmSelfEvalPrompt (text evalPrompt : List UInt8) : List UInt8 :=
  asciiBytes "[Context]\n" ++ text.takeWhile (· != 0) ++ asciiBytes "\n\n[Evaluation Prompt]\n" ++
    evalPrompt.takeWhile (· != 0) ++ asciiBytes "\n\n[Evaluation]"

/-- `rllm_eval_in_child`: no child is created; the parent itself is re-prompted and completed.
Its `rllm_get_root` only guards against `NULL`, which a node never gives. -/
def rllmEvalInChild (parent : RllmContext) (prompt : List UInt8) (params : RllmCompletionParams)
    (outLen : Nat) : Option (RllmError × List UInt8 × Nat × RllmContext) := do
  let (_, parent) ← rllmSetPrompt M parent prompt
  rllmCompleteSync M o parent params outLen

/-- `rllm_self_eval`: detokenize the buffer into `8 * n_tokens` bytes, snapshot the editor,
re-prompt it with the evaluation prompt around that text, complete, and restore the snapshot.
When detokenization stops early the text is the bytes it wrote. -/
def rllmSelfEval (c : RllmContext) (evalPrompt : List UInt8) (params : RllmCompletionParams)
    (outLen : Nat) : Option (RllmError × List UInt8 × Nat × RllmContext) :=
  match c.tokenEditor with
  | none => some (.errorInvalidContext, [], outLen, c)
  | some te => do
    let (ok, te) := teMalloc te
    if !ok then some (.errorMemory, [], outLen, { c with tokenEditor := some te }) else do
    let toks ← blockRead te.tokens 0 te.nTokens
    let (_, text) := teDetokenize M toks (te.nTokens * 8)
    let (ok, te) := teMalloc te
    if !ok then some (.errorMemory, [], outLen, { c with tokenEditor := some te }) else do
    let (snap, te) ← teCreateSnapshot te
    let (_, c) ← rllmSetPrompt M { c with tokenEditor := some te }
      (rllmSelfEvalPrompt text evalPrompt)
    let (err, out, n, c) ← rllmCompleteSync M o c params outLen
    match snap, c.tokenEditor with
    | some s, some te => do
      let (_, te) ← teRestoreSnapshot te s
      some (err, out, n, { c with tokenEditor := some te })
    | _, _ => some (err, out, n, c)

end Driver

/-- The tokens the loop appends from iteration `i` with `n` iterations left: the sampled ones
before the first end-of-generation token. -/
def rllmSampledPrefix (M : LlamaModel) (o : RllmOracle) (i n : Nat) : List Int32 :=
  ((List.range' i n).map o.sampler).takeWhile fun t => !M.tokenIsEog t

section Loop
variable {M : LlamaModel} {o : RllmOracle}

@[simp] theorem rllmSampledPrefix_zero (i : Nat) : rllmSampledPrefix M o i 0 = [] := rfl

theorem rllmSampledPrefix_succ (i n : Nat) : rllmSampledPrefix M o i (n + 1) =
    if M.tokenIsEog (o.sampler i) then [] else o.sampler i :: rllmSampledPrefix M o (i + 1) n := by
  simp only [rllmSampledPrefix, List.range'_succ, List.map_cons, List.takeWhile_cons]
  cases M.tokenIsEog (o.sampler i) <;> rfl

theorem rllmSampledPrefix_eog {i n : Nat} (he : M.tokenIsEog (o.sampler i) = true) :
    rllmSampledPrefix M o i (n + 1) = [] := by
  rw [rllmSampledPrefix_succ, if_pos he]

theorem rllmSampledPrefix_sample {i n : Nat} (he : ¬M.tokenIsEog (o.sampler i) = true) :
    rllmSampledPrefix M o i (n + 1) = o.sampler i :: rllmSampledPrefix M o (i + 1) n := by
  rw [rllmSampledPrefix_succ, if_neg he]

theorem TeContext.Ready.of_cacheOnly {ctx c : TeContext} (hr : ctx.Ready) (h : ctx.CacheOnly c)
    (ha : c.AllocOk) : c.Ready :=
  ⟨hr.wf.of_shape h.shape_eq, by rw [h]; exact hr.writable, ha⟩

theorem TeContext.CacheOnly.view_eq {ctx c : TeContext} (h : ctx.CacheOnly c) :
    c.view = ctx.view := by
  rw [h]; rfl

theorem TeContext.CacheOnly.nTokens_eq {ctx c : TeContext} (h : ctx.CacheOnly c) :
    c.nTokens = ctx.nTokens := by
  rw [h]

theorem teMalloc_of_allocOk {ctx : TeContext} (ha : ctx.AllocOk) :
    ∃ c, teMalloc ctx = (true, c) ∧ c.AllocOk ∧ ctx.CacheOnly c :=
  ⟨_, Prod.ext (teMalloc_fst_of_allocOk ha) rfl, allocOk_teMalloc ha, teMalloc_cacheOnly ctx⟩

theorem teMalloc_ready {ctx : TeContext} (hr : ctx.Ready) :
    ∃ c, teMalloc ctx = (true, c) ∧ c.Ready ∧ ctx.CacheOnly c :=
  let ⟨c, hm, ha, hc⟩ := teMalloc_of_allocOk hr.allocOk
  ⟨c, hm, hr.of_cacheOnly hc ha, hc⟩

/-- `te_sync_kv_cache` on a well-formed editor returns, touches only the cache and allocates
nothing. -/
theorem teSyncKvCache_returns {ctx : TeContext} (hw : ctx.Wf) :
    ∃ e c, teSyncKvCache ctx = some (e, c) ∧ ctx.CacheOnly c ∧ c.mallocFails = ctx.mallocFails := by
  unfold teSyncKvCache
  split
  · exact ⟨_, _, rfl, .refl ctx, rfl⟩
  · dsimp only
    split
    · simp only [blockRead_view hw, Option.bind_eq_bind, Option.some_bind]
      split <;> exact ⟨_, _, rfl, rfl, rfl⟩
    · exact ⟨_, _, rfl, rfl, rfl⟩

theorem teSyncKvCache_ready {ctx : TeContext} (hr : ctx.Ready) :
    ∃ e c, teSyncKvCache ctx = some (e, c) ∧ c.Ready ∧ ctx.CacheOnly c :=
  let ⟨e, c, h, hc, hm⟩ := teSyncKvCache_returns hr.wf
  ⟨e, c, h, hr.of_cacheOnly hc (show true ∉ c.mallocFails from hm ▸ hr.allocOk), hc⟩

/-- The generation loop from a ready editor with room for `n` more positions returns, keeping
the editor ready, with a prefix `p` of the sampled tokens appended and counted; `p` is all of
them when the loop ends with `ok`, and no allocation fails. -/
theorem rllmCompleteLoop_spec (timeoutMs : Nat) (start : BitVec 64) (n : Nat) :
    ∀ i (te : TeContext) gen tick, te.Ready → te.nTokens + n ≤ 2^31 →
    ∃ err te' gen' tick' p,
      rllmCompleteLoop M o timeoutMs start n i te gen tick = some (err, te', gen', tick') ∧
      te'.Ready ∧ (err = .ok ∨ err = .errorTimeout ∨ err = .errorModel) ∧
      p <+: rllmSampledPrefix M o i n ∧ te'.view = te.view ++ p ∧ gen' = gen + p.length ∧
      (err = .ok → p = rllmSampledPrefix M o i n) := by
  induction n with
  | zero =>
    intro i te gen tick hr _
    exact ⟨_, _, _, _, [], rfl, hr, .inl rfl, List.nil_prefix, by simp, rfl, fun _ => rfl⟩
  | succ n ih =>
    intro i te gen tick hr hn
    obtain ⟨te1, hm, hr1, hc1⟩ := teMalloc_ready hr
    have hn1 := hc1.nTokens_eq
    simp only [rllmCompleteLoop, hm, Bool.not_true, Bool.false_eq_true, if_false]
    by_cases ht : 0 < timeoutMs ∧ timeoutMs < (o.clock tick - start).toNat
    · rw [if_pos ht]
      exact ⟨_, _, _, _, [], rfl, hr, .inr (.inl rfl), List.nil_prefix, by simp, rfl, nofun⟩
    rw [if_neg ht]
    by_cases he : M.tokenIsEog (o.sampler i) = true
    · rw [if_pos he]
      exact ⟨_, _, _, _, [], rfl, hr1, .inl rfl, List.nil_prefix,
        by rw [hc1.view_eq, List.append_nil], rfl, fun _ => (rllmSampledPrefix_eog he).symm⟩
    rw [if_neg he]
    have hpos : (toPos te1.nTokens).toInt = te1.nTokens := toInt_toPos (by omega)
    obtain ⟨c, hins, hrc, hnc, hvc, -⟩ := teInsertTokens_ready M (toPos te1.nTokens) 0
      [o.sampler i] hr1 (by omega) (by simp [hpos]) (List.cons_ne_nil _ _)
    rw [List.length_singleton] at hins
    simp only [hins, Option.bind_eq_bind, Option.some_bind]
    rw [hpos, Int.toNat_ofNat, List.take_of_length_le hr1.wf.length_view.le,
      List.drop_of_length_le hr1.wf.length_view.le, List.append_nil, hc1.view_eq] at hvc
    have hg := rllmSampledPrefix_sample (n := n) he
    generalize llamaDecode c.llamaCtx [(o.sampler i, toPos ((c.nTokens + 2^64 - 1) % 2^64), 0)] = d
    obtain ⟨ok, lctx⟩ := d
    have hr2 : ({ c with llamaCtx := lctx } : TeContext).Ready := hrc.of_cacheOnly rfl hrc.allocOk
    cases ok
    · exact ⟨_, _, _, _, [o.sampler i], rfl, hr2, .inr (.inr rfl), by simp [hg], hvc, rfl, nofun⟩
    · obtain ⟨err, te', gen', tick', p, hloop, hr', herr, hp, hv, hgen, hok⟩ :=
        ih (i + 1) _ (gen + 1) _ hr2 (by simp only [hnc, hn1, List.length_singleton]; omega)
      refine ⟨err, te', gen', tick', o.sampler i :: p, hloop, hr', herr, ?_, ?_, ?_, ?_⟩
      · rw [hg]; exact (List.prefix_cons_inj _).mpr hp
      · rw [hv]; exact (congrArg (· ++ p) hvc).trans (List.append_assoc _ _ _)
      · rw [hgen, List.length_cons]; omega
      · intro h; rw [hg, hok h]

/-- The loop on a read-only editor whose allocations succeed: every `te_insert_tokens` is refused
and its result dropped, so the editor changes only in its cache, while the count still grows by
the prefix of the sampled tokens the loop went through, all of them when it ends with `ok`. -/
theorem rllmCompleteLoop_readonly (timeoutMs : Nat) (start : BitVec 64) (n : Nat) :
    ∀ i (te : TeContext) gen tick, te.readonly = true → te.AllocOk →
    ∃ err te' gen' tick' p,
      rllmCompleteLoop M o timeoutMs start n i te gen tick = some (err, te', gen', tick') ∧
      te.CacheOnly te' ∧ (err = .ok ∨ err = .errorTimeout ∨ err = .errorModel) ∧
      p <+: rllmSampledPrefix M o i n ∧ gen' = gen + p.length ∧
      (err = .ok → p = rllmSampledPrefix M o i n) := by
  induction n with
  | zero =>
    intro i te gen tick _ _
    exact ⟨_, _, _, _, [], rfl, .refl te, .inl rfl, List.nil_prefix, rfl, fun _ => rfl⟩
  | succ n ih =>
    intro i te gen tick hro ha
    obtain ⟨te1, hm, ha1, hc1⟩ := teMalloc_of_allocOk ha
    have hro1 : te1.readonly = true := by rw [hc1]; exact hro
    simp only [rllmCompleteLoop, hm, Bool.not_true, Bool.false_eq_true, if_false]
    by_cases ht : 0 < timeoutMs ∧ timeoutMs < (o.clock tick - start).toNat
    · rw [if_pos ht]
      exact ⟨_, _, _, _, [], rfl, .refl te, .inr (.inl rfl), List.nil_prefix, rfl, nofun⟩
    rw [if_neg ht]
    by_cases he : M.tokenIsEog (o.sampler i) = true
    · rw [if_pos he]
      exact ⟨_, _, _, _, [], rfl, hc1, .inl rfl, List.nil_prefix, rfl,
        fun _ => (rllmSampledPrefix_eog he).symm⟩
    rw [if_neg he]
    simp only [teInsertTokens_of_readonly M hro1, Option.bind_eq_bind, Option.some_bind]
    have hg := rllmSampledPrefix_sample (n := n) he
    generalize llamaDecode te1.llamaCtx [(o.sampler i, toPos ((te1.nTokens + 2^64 - 1) % 2^64), 0)] = d
    obtain ⟨ok, lctx⟩ := d
    have hc2 : te.CacheOnly { te1 with llamaCtx := lctx } := hc1.trans rfl
    cases ok
    · exact ⟨_, _, _, _, [o.sampler i], rfl, hc2, .inr (.inr rfl), by simp [hg], rfl, nofun⟩
    · obtain ⟨err, te', gen', tick', p, hloop, hc', herr, hp, hgen, hok⟩ :=
        ih (i + 1) { te1 with llamaCtx := lctx } (gen + 1) _ hro1 ha1
      refine ⟨err, te', gen', tick', o.sampler i :: p, hloop, hc2.trans hc', herr, ?_, ?_, ?_⟩
      · rw [hg]; exact (List.prefix_cons_inj _).mpr hp
      · rw [hgen, List.length_cons]; omega
      · intro h; rw [hg, hok h]

end Loop

/-! ## The driver -/

section Complete
variable (M : LlamaModel) (o : RllmOracle)

/-- Every return of `rllm_complete` from a node that is not running leaves it not running. -/
theorem rllmComplete_not_running {c c' : RllmContext} {params : RllmCompletionParams}
    {err : RllmError} (hs : c.state ≠ .running) (h : rllmComplete M o c params = some (err, c')) :
    c'.state ≠ .running := by
  unfold rllmComplete at h
  rw [if_neg hs] at h
  split at h
  · cases h; exact hs
  · simp only [Option.bind_eq_bind] at h
    obtain ⟨_, -, h⟩ := Option.bind_eq_some.mp h
    split at h
    · cases h; nofun
    · obtain ⟨_, -, h⟩ := Option.bind_eq_some.mp h
      split at h <;> (cases h; nofun)

/-- `rllm_complete` on a node that is not running, with a ready editor with room for
`n_predict` more positions, returns with a prefix of the sampled tokens appended and counted:
all of them and `COMPLETE` on `RLLM_OK`, `ERROR` after a timeout or a failed decode. -/
theorem rllmComplete_spec (c : RllmContext) (params : RllmCompletionParams) {te : TeContext}
    (hs : c.state ≠ .running) (hte : c.tokenEditor = some te) (hr : te.Ready)
    (hn : te.nTokens + params.nPredict ≤ 2^31) :
    ∃ err c' te' p, rllmComplete M o c params = some (err, c') ∧ c'.tokenEditor = some te' ∧
      te'.Ready ∧ p <+: rllmSampledPrefix M o 0 params.nPredict ∧ te'.view = te.view ++ p ∧
      c'.tokensGenerated = p.length ∧ (err = .ok ∨ err = .errorTimeout ∨ err = .errorModel) ∧
      (err = .ok → c'.state = .complete ∧ p = rllmSampledPrefix M o 0 params.nPredict) ∧
      (err ≠ .ok → c'.state = .error) := by
  obtain ⟨_, t1, hsync, hr1, hc1⟩ := teSyncKvCache_ready hr
  obtain ⟨t2, hm, hr2, hc2⟩ := teMalloc_ready hr1
  have hn2 : t2.nTokens + params.nPredict ≤ 2^31 := by rw [hc2.nTokens_eq, hc1.nTokens_eq]; exact hn
  obtain ⟨err, te', gen', tick', p, hloop, hr', herr, hp, hv, hgen, hok⟩ :=
    rllmCompleteLoop_spec (M := M) (o := o) params.timeoutMs (o.clock 0) params.nPredict 0 t2 0 1
      hr2 hn2
  rw [hc2.view_eq, hc1.view_eq] at hv
  rw [Nat.zero_add] at hgen
  simp only [rllmComplete, if_neg hs, hte, hsync, hm, hloop, Option.bind_eq_bind, Option.some_bind,
    Bool.not_true, Bool.false_eq_true, if_false]
  rcases herr with rfl | rfl | rfl
  · exact ⟨_, _, te', p, rfl, rfl, hr', hp, hv, hgen, .inl rfl, fun _ => ⟨rfl, hok rfl⟩,
      fun h => absurd rfl h⟩
  · exact ⟨_, _, te', p, rfl, rfl, hr', hp, hv, hgen, .inr (.inl rfl), nofun, fun _ => rfl⟩
  · exact ⟨_, _, te', p, rfl, rfl, hr', hp, hv, hgen, .inr (.inr rfl), nofun, fun _ => rfl⟩

/-- The block holding a buffer's suffix past `v`. -/
theorem blockRead_view_append {c : TeContext} (hw : c.Wf) {v g : List Int32}
    (hv : c.view = v ++ g) : blockRead c.tokens v.length g.length = some g := by
  have hl : v.length + g.length = c.nTokens := by rw [← hw.length_view, hv, List.length_append]
  rw [blockRead_eq (by have := hw.nTokens_le; have := hw.capacity_le; omega),
    show g.length = c.nTokens - v.length by omega, ← List.drop_take, ← TeContext.view, hv,
    List.drop_left]

/-- `te_detokenize` returning `TE_OK` wrote the pieces' concatenation and its length. -/
theorem teDetokenize_of_ok {ts : List Int32} {outLen : Nat} (h : (teDetokenize M ts outLen).1 = .ok) :
    teDetokenize M ts outLen = (.ok, ts.flatMap M.tokenToPiece) ∧
      teDetokenizeOutLen M ts outLen = (ts.flatMap M.tokenToPiece).length := by
  obtain ⟨-, hout, -, -⟩ := teDetokenize_go_spec M outLen ts [] (Nat.zero_le _)
  have e : teDetokenize M ts outLen = (.ok, ts.flatMap M.tokenToPiece) :=
    Prod.ext h ((hout h).trans (List.nil_append _))
  exact ⟨e, by rw [teDetokenizeOutLen, e]⟩

/-- `rllm_complete_sync` returning `RLLM_OK` from such a node wrote the detokenization of all
the sampled tokens and set `*out_len` to its length. -/
theorem rllmCompleteSync_ok (c : RllmContext) (params : RllmCompletionParams) {te : TeContext}
    (hs : c.state ≠ .running) (hte : c.tokenEditor = some te) (hr : te.Ready)
    (hn : te.nTokens + params.nPredict ≤ 2^31) {outLen k : Nat} {out : List UInt8}
    {c'' : RllmContext} (h : rllmCompleteSync M o c params outLen = some (.ok, out, k, c'')) :
    out = (rllmSampledPrefix M o 0 params.nPredict).flatMap M.tokenToPiece ∧ k = out.length := by
  obtain ⟨err, c', te', p, hrun, htc, hr', -, hv, -, -, hok, -⟩ :=
    rllmComplete_spec M o c params hs hte hr hn
  simp only [rllmCompleteSync, hte, Option.map_some', Option.getD_some, hrun, Option.bind_eq_bind,
    Option.some_bind] at h
  by_cases he : err = .ok
  swap
  · rw [if_pos he] at h
    exact absurd (congrArg (·.1) (Option.some.inj h)) he
  subst he
  obtain ⟨-, rfl⟩ := hok rfl
  have hlen : te'.nTokens = te.nTokens + (rllmSampledPrefix M o 0 params.nPredict).length := by
    rw [← hr'.wf.length_view, hv, List.length_append, hr.wf.length_view]
  simp only [ne_eq, not_true_eq_false, if_false, htc] at h
  split at h
  · rw [show te'.nTokens - te.nTokens = (rllmSampledPrefix M o 0 params.nPredict).length by omega,
      ← hr.wf.length_view, blockRead_view_append hr'.wf hv, Option.some_bind] at h
    split_ifs at h with hd
    · obtain ⟨e1, e2⟩ := teDetokenize_of_ok M hd
      simp only [e1, e2, Option.some.injEq, Prod.mk.injEq] at h
      exact ⟨h.2.1.symm, h.2.2.1.symm.trans (congrArg _ h.2.1)⟩
    · cases h
  · have hg : rllmSampledPrefix M o 0 params.nPredict = [] := List.eq_nil_of_length_eq_zero (by omega)
    simp only [Option.some.injEq, Prod.mk.injEq] at h
    rw [hg, ← h.2.1, ← h.2.2.1]
    exact ⟨rfl, rfl⟩

/-- The generation driver never stays running; from a ready editor with room for `n_predict`
more positions it returns, appending and counting the sampled tokens before the first
end-of-generation token (all of them on `RLLM_OK`, a prefix after a timeout or a failed decode),
and `rllm_complete_sync` then writes exactly their detokenization. -/
theorem rllmComplete_appends_sampled (c : RllmContext) (params : RllmCompletionParams)
    (hs : c.state ≠ .running) :
    (∀ err c', rllmComplete M o c params = some (err, c') → c'.state ≠ .running) ∧
    ∀ te, c.tokenEditor = some te → te.Ready → te.nTokens + params.nPredict ≤ 2^31 →
      (∃ err c', rllmComplete M o c params = some (err, c') ∧
        (err = .ok ∨ err = .errorTimeout ∨ err = .errorModel) ∧
        (err = .ok → c'.state = .complete ∧
          c'.tokenEditor.map TeContext.view = some (te.view ++ rllmSampledPrefix M o 0 params.nPredict) ∧
          c'.tokensGenerated = (rllmSampledPrefix M o 0 params.nPredict).length) ∧
        (err ≠ .ok → c'.state = .error ∧ ∃ p, p <+: rllmSampledPrefix M o 0 params.nPredict ∧
          c'.tokenEditor.map TeContext.view = some (te.view ++ p) ∧ c'.tokensGenerated = p.length)) ∧
      ∀ outLen out k c', rllmCompleteSync M o c params outLen = some (.ok, out, k, c') →
        out = (rllmSampledPrefix M o 0 params.nPredict).flatMap M.tokenToPiece ∧ k = out.length := by
  refine ⟨fun _ _ => rllmComplete_not_running M o hs, fun te hte hr hn => ⟨?_, fun _ _ _ _ =>
    rllmCompleteSync_ok M o c params hs hte hr hn⟩⟩
  obtain ⟨err, c', te', p, hrun, htc, -, hp, hv, hgen, herr, hok, hne⟩ :=
    rllmComplete_spec M o c params hs hte hr hn
  have hview : c'.tokenEditor.map TeContext.view = some (te.view ++ p) := by
    rw [htc, Option.map_some', hv]
  refine ⟨err, c', hrun, herr, fun he => ?_, fun he => ⟨hne he, p, hp, hview, hgen⟩⟩
  obtain ⟨hst, rfl⟩ := hok he
  exact ⟨hst, hview, hgen⟩

/-- The driver's statement on an idle node whose editor holds one free slot. -/
theorem rllmComplete_appends_sampled_idle :
    ∃ c : RllmContext, c.state ≠ .running ∧
    (∀ err c', rllmComplete default ⟨fun _ => 0, fun _ => 7⟩ c ⟨1, false, 0⟩ = some (err, c') →
      c'.state ≠ .running) ∧
    ∀ te, c.tokenEditor = some te → te.Ready → te.nTokens + 1 ≤ 2^31 →
      (∃ err c', rllmComplete default ⟨fun _ => 0, fun _ => 7⟩ c ⟨1, false, 0⟩ = some (err, c') ∧
        (err = .ok ∨ err = .errorTimeout ∨ err = .errorModel) ∧
        (err = .ok → c'.state = .complete ∧
          c'.tokenEditor.map TeContext.view =
            some (te.view ++ rllmSampledPrefix default ⟨fun _ => 0, fun _ => 7⟩ 0 1) ∧
          c'.tokensGenerated = (rllmSampledPrefix default ⟨fun _ => 0, fun _ => 7⟩ 0 1).length) ∧
        (err ≠ .ok → c'.state = .error ∧ ∃ p, p <+: rllmSampledPrefix default ⟨fun _ => 0, fun _ => 7⟩ 0 1 ∧
          c'.tokenEditor.map TeContext.view = some (te.view ++ p) ∧ c'.tokensGenerated = p.length)) ∧
      ∀ outLen out k c', rllmCompleteSync default ⟨fun _ => 0, fun _ => 7⟩ c ⟨1, false, 0⟩ outLen =
          some (.ok, out, k, c') →
        out = (rllmSampledPrefix default ⟨fun _ => 0, fun _ => 7⟩ 0 1).flatMap
          (default : LlamaModel).tokenToPiece ∧ k = out.length :=
  let te : TeContext :=
    { llamaCtx := ⟨[], []⟩, tokens := [0], tokenInfo := [default], nTokens := 0, capacity := 1
      history := [], historyTail := none, redoStack := [], historyLimit := 100
      activeSequences := [0], nSequences := 1, readonly := false, kvCacheDirty := false
      logitsValid := false, suppressHistory := false, mallocFails := [] }
  ⟨{ (default : RllmContext) with tokenEditor := some te }, nofun,
    rllmComplete_appends_sampled default ⟨fun _ => 0, fun _ => 7⟩ _ ⟨1, false, 0⟩ nofun⟩

/-- `rllm_complete` drops what `te_insert_tokens` returns: on a node that is not running, with a
well-formed read-only editor whose allocations succeed, it returns with the editor changed only in
its cache, so the buffer is the one before the call, while `tokens_generated` counts a prefix of
the sampled tokens, all of them and `COMPLETE` on `RLLM_OK`. -/
theorem rllmComplete_readonly_counts_unwritten (c : RllmContext) (params : RllmCompletionParams)
    {te : TeContext} (hs : c.state ≠ .running) (hte : c.tokenEditor = some te) (hw : te.Wf)
    (hro : te.readonly = true) (ha : te.AllocOk) :
    ∃ err c' te' p, rllmComplete M o c params = some (err, c') ∧ c'.tokenEditor = some te' ∧
      te'.view = te.view ∧ p <+: rllmSampledPrefix M o 0 params.nPredict ∧
      c'.tokensGenerated = p.length ∧ (err = .ok ∨ err = .errorTimeout ∨ err = .errorModel) ∧
      (err = .ok → c'.state = .complete ∧ p = rllmSampledPrefix M o 0 params.nPredict) := by
  obtain ⟨_, t1, hsync, hc1, hm1⟩ := teSyncKvCache_returns hw
  obtain ⟨t2, hm, ha2, hc2⟩ := teMalloc_of_allocOk (show true ∉ t1.mallocFails from hm1 ▸ ha)
  have hro2 : t2.readonly = true := by rw [hc2, hc1]; exact hro
  obtain ⟨err, te', gen', tick', p, hloop, hc', herr, hp, hgen, hok⟩ :=
    rllmCompleteLoop_readonly (M := M) (o := o) params.timeoutMs (o.clock 0) params.nPredict 0 t2 0 1
      hro2 ha2
  have hv : te'.view = te.view := by rw [hc'.view_eq, hc2.view_eq, hc1.view_eq]
  rw [Nat.zero_add] at hgen
  simp only [rllmComplete, if_neg hs, hte, hsync, hm, hloop, Option.bind_eq_bind, Option.some_bind,
    Bool.not_true, Bool.false_eq_true, if_false]
  rcases herr with rfl | rfl | rfl
  · exact ⟨_, _, te', p, rfl, rfl, hv, hp, hgen, .inl rfl, fun _ => ⟨rfl, hok rfl⟩⟩
  · exact ⟨_, _, te', p, rfl, rfl, hv, hp, hgen, .inr (.inl rfl), nofun⟩
  · exact ⟨_, _, te', p, rfl, rfl, hv, hp, hgen, .inr (.inr rfl), nofun⟩

/-- The root `rllm_create_root` makes, its editor set read-only, and a sampler answering `7`:
`rllm_complete` with `n_predict = 1` returns `RLLM_OK` and `COMPLETE` with `tokens_generated = 1`
while the buffer is still empty. -/
theorem rllmComplete_readonly_counts_unwritten_root :
    ∃ (env : RllmEnv) (c : RllmContext) (te : TeContext) (c' : RllmContext) (te' : TeContext),
      RllmReachable default ⟨8, 64⟩ env ∧ env.heap 0 = some c ∧ c.tokenEditor = some te ∧
      rllmComplete default ⟨fun _ => 0, fun _ => 7⟩
        { c with tokenEditor := some { te with readonly := true } } ⟨1, false, 0⟩ = some (.ok, c') ∧
      c'.state = .complete ∧ c'.tokensGenerated = 1 ∧ c'.tokenEditor = some te' ∧ te'.view = [] := by
  obtain ⟨env0, h0⟩ : ∃ e, rllmInit ⟨8, 64⟩ [] = some e := ⟨_, rfl⟩
  have r1 : RllmReachable default ⟨8, 64⟩ (rllmCreateRoot env0 default (some ⟨[], []⟩)).2 :=
    .step (.createRoot default (some ⟨[], []⟩)) (.init h0) rfl
  obtain ⟨c, te, hc, hte, hst, hinit, ha, hok⟩ : ∃ c te,
      (rllmCreateRoot env0 default (some ⟨[], []⟩)).2.heap 0 = some c ∧ c.tokenEditor = some te ∧
      c.state ≠ .running ∧ (teInit ⟨[], []⟩ []).1 = some te ∧ te.AllocOk ∧
      (rllmComplete default ⟨fun _ => 0, fun _ => 7⟩
        { c with tokenEditor := some { te with readonly := true } } ⟨1, false, 0⟩).map (·.1) =
        some .ok := by
    obtain ⟨ctx0, -⟩ := teInit_allocOk ⟨[], []⟩ (List.not_mem_nil true)
    refine ⟨((rllmCreateRoot env0 default (some ⟨[], []⟩)).2.heap 0).getD default,
      (((rllmCreateRoot env0 default (some ⟨[], []⟩)).2.heap 0).getD default).tokenEditor.getD ctx0,
      ?_⟩
    cases h0
    exact ⟨rfl, rfl, by decide, rfl, List.not_mem_nil _, rfl⟩
  have hi := teInit_initial hinit
  obtain ⟨err, c', te', p, hrun, hte', hv, -, hgen, -, hp⟩ :=
    rllmComplete_readonly_counts_unwritten default ⟨fun _ => 0, fun _ => 7⟩
      { c with tokenEditor := some { te with readonly := true } } ⟨1, false, 0⟩ hst rfl
      (hi.wf.of_shape rfl) rfl ha
  obtain rfl : err = .ok := by rw [hrun] at hok; exact Option.some.inj hok
  obtain ⟨hs', rfl⟩ := hp rfl
  exact ⟨_, c, te, c', te', r1, hc, hte, hrun, hs', hgen, hte',
    by rw [hv]; simp [TeContext.view, hi.nTokens_eq]⟩

end Complete

/-! ## The evaluation helpers -/

section Helpers
variable (M : LlamaModel) (o : RllmOracle)

/-- `te_clear` on a ready editor empties it and keeps it ready. -/
theorem teClear_ready {te : TeContext} (hr : te.Ready) :
    ∃ c1, teClear te 0 = some (.ok, c1) ∧ c1.Ready ∧ c1.view = [] := by
  have hr0 := (teClear_edited hr.wf).ready hr
  rw [teClear_spec 0 hr.wf hr.writable]
  split_ifs
  · exact ⟨_, rfl, hr0.teRecordEdit _ _ _ _, by rw [teRecordEdit_view]; rfl⟩
  · exact ⟨_, rfl, hr0, rfl⟩

/-- `rllm_set_prompt` on a ready editor, with a prompt whose tokens are not empty and fit the
`len + 1` slots, replaces the whole buffer by those tokens. -/
theorem rllmSetPrompt_ready {c : RllmContext} {te : TeContext} {prompt : List UInt8}
    (hte : c.tokenEditor = some te) (hr : te.Ready) (hne : M.tokenize prompt true ≠ [])
    (hlen : (M.tokenize prompt true).length ≤ prompt.length + 1) :
    ∃ te', rllmSetPrompt M c prompt = some (.ok, { c with tokenEditor := some te' }) ∧ te'.Ready ∧
      te'.view = M.tokenize prompt true := by
  obtain ⟨c1, hclear, hr1, hv1⟩ := teClear_ready hr
  obtain ⟨c2, hm, hr2, hc2⟩ := teMalloc_ready hr1
  obtain ⟨c3, hins, hr3, -, hv3, -⟩ := teInsertTokens_ready M 0 0 _ hr2 le_rfl (by simp) hne
  refine ⟨c3, ?_, hr3, by simpa [hc2.view_eq, hv1] using hv3⟩
  simp only [rllmSetPrompt, hte, hclear, hm, hins, teTokenize, if_neg (not_lt.mpr hlen),
    Option.bind_eq_bind, Option.some_bind, Bool.not_true, Bool.false_eq_true, if_false, ne_eq,
    not_true_eq_false, if_true]

/-- `rllm_complete_sync` returns whenever `rllm_complete` does with a well-formed editor, with
the node `rllm_complete` left. -/
theorem rllmCompleteSync_of_complete {c c' : RllmContext} {params : RllmCompletionParams}
    {err : RllmError} {te' : TeContext} (outLen : Nat) (hrun : rllmComplete M o c params = some (err, c'))
    (htc : c'.tokenEditor = some te') (hw : te'.Wf) :
    ∃ e out k, rllmCompleteSync M o c params outLen = some (e, out, k, c') := by
  simp only [rllmCompleteSync, hrun, Option.bind_eq_bind, Option.some_bind]
  split_ifs
  · exact ⟨_, _, _, rfl⟩
  · simp only [htc]
    split_ifs with hlt
    · rw [blockRead_eq (by have := hw.nTokens_le; have := hw.capacity_le; omega), Option.some_bind]
      exact ⟨_, _, _, rfl⟩
    · exact ⟨_, _, _, rfl⟩

/-- `rllm_eval_in_child` re-prompts the parent itself: from a ready editor, whatever buffer it
held, it returns with the prompt's tokens followed by a prefix of the sampled tokens. -/
theorem rllmEvalInChild_replaces_parent (c : RllmContext) (prompt : List UInt8)
    (params : RllmCompletionParams) (outLen : Nat) {te : TeContext} (hs : c.state ≠ .running)
    (hte : c.tokenEditor = some te) (hr : te.Ready) (hne : M.tokenize prompt true ≠ [])
    (hlen : (M.tokenize prompt true).length ≤ prompt.length + 1)
    (hn : (M.tokenize prompt true).length + params.nPredict ≤ 2^31) :
    ∃ err out k c' te' p, rllmEvalInChild M o c prompt params outLen = some (err, out, k, c') ∧
      c'.tokenEditor = some te' ∧ p <+: rllmSampledPrefix M o 0 params.nPredict ∧
      te'.view = M.tokenize prompt true ++ p := by
  obtain ⟨t1, hset, hr1, hv1⟩ := rllmSetPrompt_ready M hte hr hne hlen
  obtain ⟨_, c', te', p, hrun, htc, hr', hp, hv, -⟩ :=
    rllmComplete_spec M o { c with tokenEditor := some t1 } params hs rfl hr1
      (by rw [← hr1.wf.length_view, hv1]; exact hn)
  obtain ⟨e, out, k, hsync⟩ := rllmCompleteSync_of_complete M o outLen hrun htc hr'.wf
  refine ⟨e, out, k, c', te', p, ?_, htc, hp, by rw [hv, hv1]⟩
  simp only [rllmEvalInChild, hset, hsync, Option.bind_eq_bind, Option.some_bind]

end Helpers

/-- A root from `rllm_init` and `rllm_create_root`, its editor empty with no history:
`rllm_self_eval` brings the empty buffer back but leaves the insertion of its evaluation prompt
in the history, so a following `te_undo` moves that entry to the redo stack where before the call
it changed nothing; and `rllm_eval_in_child` leaves the prompt's tokens in the root. -/
theorem rllmSelfEval_keeps_prompt_entry :
    let M₁ : LlamaModel := { (default : LlamaModel) with tokenize := fun _ _ => [1] }
    let o : RllmOracle := ⟨fun _ => 0, fun _ => 7⟩
    ∃ (env : RllmEnv) (c : RllmContext) (te : TeContext), RllmReachable M₁ ⟨8, 64⟩ env ∧
      env.heap 0 = some c ∧ c.tokenEditor = some te ∧ te.view = [] ∧ te.history = [] ∧
      te.redoStack = [] ∧ teUndo M₁ te = some (.ok, te) ∧
      ((rllmSelfEval M₁ o c [] ⟨0, false, 0⟩ 16).bind (·.2.2.2.tokenEditor)).map
        (fun te' => (te'.view, te'.history.length, (teUndo M₁ te').map (·.2.redoStack.length))) =
        some ([], 1, some 1) ∧
      ((rllmEvalInChild M₁ o c (asciiBytes "hi") ⟨0, false, 0⟩ 16).bind
        (·.2.2.2.tokenEditor)).map TeContext.view = some [1] := by
  intro M₁ o
  obtain ⟨env0, h0⟩ : ∃ e, rllmInit ⟨8, 64⟩ [] = some e := ⟨_, rfl⟩
  have r1 : RllmReachable M₁ ⟨8, 64⟩ (rllmCreateRoot env0 default (some ⟨[], []⟩)).2 :=
    .step (.createRoot default (some ⟨[], []⟩)) (.init h0) rfl
  obtain ⟨ctx0, -⟩ := teInit_allocOk ⟨[], []⟩ (List.not_mem_nil true)
  refine ⟨_, ((rllmCreateRoot env0 default (some ⟨[], []⟩)).2.heap 0).getD default,
    (((rllmCreateRoot env0 default (some ⟨[], []⟩)).2.heap 0).getD default).tokenEditor.getD ctx0,
    r1, ?_⟩
  cases h0
  exact ⟨rfl, rfl, rfl, rfl, rfl, rfl, by decide!, by decide!⟩

end TokenEditor
