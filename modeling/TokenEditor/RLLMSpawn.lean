import TokenEditor.RLLMWellFormed
import TokenEditor.TEBufferLaws

/-! What a child inherits from `rllm_spawn_child`. The tokens are copied into the child's fresh
editor for the `TOKENS_COPY` and `FULL` modes only, so a `TOKENS_READ` child starts empty like a
`NONE` or `KV_COPY` one; the parent's editor is never touched. -/

namespace TokenEditor

/-- `rllm_add_child` relinks the two nodes and keeps every node's editor. -/
theorem rllmAddChild_tokenEditor {env env' : RllmEnv} {pa a : Addr}
    (hres : rllmAddChild env pa a = some env') (x : Addr) :
    (env'.heap x).map RllmContext.tokenEditor = (env.heap x).map RllmContext.tokenEditor := by
  unfold rllmAddChild at hres
  simp only [Option.bind_eq_bind] at hres
  obtain ⟨p, hp, hres⟩ := Option.bind_eq_some.mp hres
  obtain ⟨-, -, hres⟩ := Option.bind_eq_some.mp hres
  have hlink : ∀ q : RllmContext, q.tokenEditor = p.tokenEditor →
      ∀ y, (Function.update env.heap pa (some { q with children := q.children ++ [a] }) y).map
        RllmContext.tokenEditor = (env.heap y).map RllmContext.tokenEditor := by
    intro q hq y
    by_cases hy : y = pa
    · subst hy; rw [Function.update_same, hp]; exact congrArg some hq
    · rw [Function.update_noteq hy]
  have hmod : ∀ (heap : Addr → Option RllmContext) (f : RllmContext → RllmContext),
      (∀ c, (f c).tokenEditor = c.tokenEditor) → ∀ y,
      (Function.update heap a ((heap a).map f) y).map RllmContext.tokenEditor =
        (heap y).map RllmContext.tokenEditor := by
    intro heap f hf y
    by_cases hy : y = a
    · subst hy; rw [Function.update_same]; cases heap y <;> simp [hf]
    · rw [Function.update_noteq hy]
  by_cases hfull : p.childrenCapacity ≤ p.children.length
  · cases hb : env.mallocFails.headD false <;>
      simp only [hfull, rllmMalloc, hb, if_true, Bool.not_false, Bool.not_true, Bool.false_eq_true,
        if_false, Option.some.injEq] at hres <;> subst hres
    · exact (hmod _ (fun c => { c with parent := some pa, depth := p.depth + 1 }) (fun _ => rfl) x).trans
        (hlink { p with childrenCapacity := p.childrenCapacity * 2 } rfl x)
    · rfl
  · simp only [hfull, if_false, Bool.not_true, Bool.false_eq_true, Option.some.injEq] at hres
    subst hres
    exact (hmod _ (fun c => { c with parent := some pa, depth := p.depth + 1 }) (fun _ => rfl) x).trans
      (hlink p rfl x)

/-- The allocations `rllm_alloc_context` makes consume outcomes from the front. -/
theorem rllmAllocContext_mallocFails (env : RllmEnv) :
    (rllmAllocContext env).2.mallocFails <:+ env.mallocFails := by
  have t1 := List.tail_suffix env.mallocFails
  have t3 := ((List.tail_suffix env.mallocFails.tail.tail).trans (List.tail_suffix _)).trans t1
  have t4 := (List.tail_suffix env.mallocFails.tail.tail.tail).trans t3
  unfold rllmAllocContext
  by_cases h1 : env.config.maxContexts.toNat ≤ env.contexts.length
  · simp only [if_pos h1]; exact List.suffix_refl _
  rw [if_neg h1]
  dsimp only [rllmMalloc]
  by_cases h2 : env.contextCapacity ≤ env.contexts.length
  · rw [if_pos h2]
    cases env.mallocFails.headD false <;> cases env.mallocFails.tail.headD false <;>
      cases env.mallocFails.tail.tail.headD false <;> cases env.mallocFails.tail.tail.tail.headD false <;>
      first | exact t1 | exact t3 | exact t4
  · rw [if_neg h2]
    cases env.mallocFails.headD false <;> cases env.mallocFails.tail.headD false <;>
      cases env.mallocFails.tail.tail.headD false <;> first | exact t1 | exact t3

theorem teInit_mallocFails (lctx : LlamaContext) (heap : List Bool) :
    (teInit lctx heap).2 <:+ heap := by
  obtain ⟨r, l, h⟩ : ∃ r l, teInit lctx heap = (r, l) := ⟨_, _, rfl⟩
  rw [h]
  simp only [teInit, teMalloc] at h
  split_ifs at h <;> obtain ⟨rfl, rfl⟩ := Prod.mk.inj h <;>
    simp only [← List.drop_one, List.drop_drop] <;>
    first | exact List.suffix_refl _ | exact List.drop_suffix _ _

section
variable (M : LlamaModel)

/-- A successful `rllm_spawn_child`, step by step. -/
theorem rllmSpawnChild_some_inv {env env' : RllmEnv} {pa a : Addr} {config : RllmCtxConfig}
    {newCtx : Option LlamaContext}
    (hres : rllmSpawnChild M env (some pa) config newCtx = some (some a, env')) :
    ∃ p env1 lctx ed env3 ed4 env4 env5, env.heap pa = some p ∧
      rllmAllocContext env = (some a, env1) ∧
      rllmNewEditor (env1.modify a fun c => { c with relation := .child, config := config }) lctx =
        (some ed, env3) ∧
      rllmInherit M env3 p config.shareMode ed = some (ed4, env4) ∧
      rllmAddChild (env4.modify a fun c => { c with tokenEditor := some ed4 }) pa a = some env5 ∧
      env'.heap = env5.heap := by
  unfold rllmSpawnChild at hres
  simp only [Option.bind_eq_bind] at hres
  obtain ⟨p, hp, hres⟩ := Option.bind_eq_some.mp hres
  split_ifs at hres
  · cases hres
  split at hres
  · cases hres
  next a' env1 heq =>
  rcases newCtx with _ | lctx
  · cases hres
  dsimp only at hres
  split at hres
  · cases hres
  next ed env3 heq' =>
  obtain ⟨⟨ed4, env4⟩, hinh, hres⟩ := Option.bind_eq_some.mp hres
  obtain ⟨env5, hadd, hres⟩ := Option.bind_eq_some.mp hres
  obtain ⟨c, -, hres⟩ := Option.bind_eq_some.mp hres
  cases hres
  exact ⟨p, env1, lctx, ed, env3, ed4, env4, env5, hp, heq, heq', hinh, hadd, by simp⟩

/-- The child's editor after the inheritance step, allocations succeeding: the parent's tokens for
`TOKENS_COPY` and `FULL`, the fresh editor's empty buffer for every other mode. -/
theorem rllmInherit_view {env env' : RllmEnv} {p : RllmContext} {mode : RllmShareMode}
    {ed ed' pte : TeContext} (h : rllmInherit M env p mode ed = some (ed', env'))
    (hpte : p.tokenEditor = some pte) (hw : pte.Wf) (hn : pte.nTokens < 2^31) (hed : ed.Wf)
    (hro : ed.readonly = false) (hed0 : ed.nTokens = 0) (hm : true ∉ env.mallocFails) :
    ed'.view = if mode = .tokensCopy ∨ mode = .full then pte.view else [] := by
  unfold rllmInherit at h
  rw [hpte, Option.bind_eq_bind, Option.some_bind] at h
  split at h
  next ed1 env1 heq =>
  obtain ⟨L, rfl, hsuf⟩ : ∃ L, ed1 = { ed with llamaCtx := L } ∧ env1.mallocFails <:+ env.mallocFails := by
    split at heq
    · simp only [rllmMalloc, Prod.mk.injEq] at heq
      obtain ⟨rfl, rfl⟩ := heq
      split_ifs
      · exact ⟨_, rfl, List.tail_suffix _⟩
      · exact ⟨ed.llamaCtx, rfl, List.tail_suffix _⟩
    · cases heq
      exact ⟨ed.llamaCtx, rfl, List.suffix_refl _⟩
  have hm1 : true ∉ env1.mallocFails := fun ht => hm (hsuf.subset ht)
  have hv0 : ({ ed with llamaCtx := L } : TeContext).view = [] := by
    simp [TeContext.view, hed0]
  split at h
  next hc =>
    obtain ⟨hmode, hpos⟩ := hc
    have hview : pte.view.length = pte.nTokens := hw.length_view
    have hget : teGetTokens pte ⟨0, toPos pte.nTokens, -1⟩ pte.nTokens = some (.ok, pte.view) := by
      have hs := toInt_toPos hn
      rw [teGetTokens_of_le _ hw (by simp) (by simp [hs]; omega) (by simp [hs]) (by simp [hs])]
      simp [hs, List.take_of_length_le hview.le]
    have hready : ({ ed with llamaCtx := L, mallocFails := env1.mallocFails.tail } : TeContext).Ready :=
      ⟨⟨hed.nTokens_le, hed.capacity_le, hed.info_length, hed.capacity_pos⟩, hro,
        fun ht => hm1 (List.mem_of_mem_tail ht)⟩
    obtain ⟨c, hins, -, -, hv, -⟩ := teInsertTokens_ready M 0 0 pte.view hready (by decide)
      (by simp [hed0]) (List.ne_nil_of_length_pos (hview ▸ hpos))
    simp only [rllmMalloc, headD_of_not_mem hm1, Bool.not_false, Bool.not_true, Bool.false_eq_true,
      if_false, hget, Option.bind_eq_bind, Option.some_bind] at h
    rw [hins, Option.some_bind] at h
    cases h
    rw [if_pos hmode, hv]
    simp [TeContext.view, hed0]
  next hc =>
    cases h
    rw [hv0]
    split_ifs with hmode
    · have : pte.nTokens = 0 := by by_contra h0; exact hc ⟨hmode, Nat.pos_of_ne_zero h0⟩
      simp [TeContext.view, this]
    · rfl

/-- A successful `rllm_spawn_child` under a parent whose editor is well formed leaves that editor
as it was. With allocations succeeding, the child's buffer is the parent's for `TOKENS_COPY` and
`FULL` and empty for every other mode, `TOKENS_READ` included. -/
theorem rllmSpawnChild_inherits_tokens {env env' : RllmEnv} (hf : env.Forest) {pa a : Addr}
    {p : RllmContext} {pte : TeContext} (hp : env.heap pa = some p) (hpte : p.tokenEditor = some pte)
    (hw : pte.Wf) (hn : pte.nTokens < 2^31) {config : RllmCtxConfig} {newCtx : Option LlamaContext}
    (hres : rllmSpawnChild M env (some pa) config newCtx = some (some a, env')) :
    (env'.heap pa).map RllmContext.tokenEditor = some (some pte) ∧
    (true ∉ env.mallocFails → ∃ ed, (env'.heap a).map RllmContext.tokenEditor = some (some ed) ∧
      ed.view = if config.shareMode = .tokensCopy ∨ config.shareMode = .full then pte.view else []) := by
  obtain ⟨p', env1, lctx, ed, env3, ed4, env4, env5, hp', halloc, hnew, hinh, hadd, hheap⟩ :=
    rllmSpawnChild_some_inv M hres
  cases hp.symm.trans hp'
  obtain ⟨-, -, ⟨h1, -⟩ | ⟨h1, -, hh1⟩⟩ := rllmAllocContext_heap env <;> rw [halloc] at h1
  · cases h1
  cases h1
  rw [halloc] at hh1
  dsimp only at hh1
  have hne : pa ≠ env.nextAddr := (RllmForest.lt_of_some hf (rllmLinks_eq_some hp)).ne
  obtain ⟨hh3, -⟩ := rllmNewEditor_tree hnew
  obtain ⟨hh4, -⟩ := rllmInherit_tree M hinh
  refine ⟨?_, fun hm => ?_⟩
  · rw [hheap, rllmAddChild_tokenEditor hadd, RllmEnv.modify_heap_of_ne _ _ hne, hh4, hh3,
      RllmEnv.modify_heap_of_ne _ _ hne, hh1, Function.update_noteq hne, hp]
    simp [hpte]
  · have hinit : (teInit lctx env1.mallocFails).1 = some ed := congrArg Prod.fst hnew
    have hm3 : true ∉ env3.mallocFails := by
      rw [← congrArg (·.mallocFails) (congrArg Prod.snd hnew)]
      have hs := (teInit_mallocFails lctx env1.mallocFails).trans
        (halloc ▸ rllmAllocContext_mallocFails env)
      exact fun ht => hm (hs.subset ht)
    have hI := teInit_initial hinit
    refine ⟨ed4, ?_, rllmInherit_view M hinh hpte hw hn hI.wf hI.writable hI.nTokens_eq hm3⟩
    rw [hheap, rllmAddChild_tokenEditor hadd]
    simp [RllmEnv.modify, hh4, hh3, hh1]

end

theorem rllmSpawnChild_inherits_tokens_read :
    ∃ env env' p pte, env.Forest ∧ env.heap 0 = some p ∧ p.tokenEditor = some pte ∧ pte.Wf ∧
      pte.nTokens < 2^31 ∧
      rllmSpawnChild default env (some 0) { (default : RllmCtxConfig) with shareMode := .tokensRead }
        (some ⟨[], []⟩) = some (some 1, env') ∧
      (env'.heap 0).map RllmContext.tokenEditor = some (some pte) ∧
      (true ∉ env.mallocFails → ∃ ed, (env'.heap 1).map RllmContext.tokenEditor = some (some ed) ∧
        ed.view = if RllmShareMode.tokensRead = .tokensCopy ∨ RllmShareMode.tokensRead = .full then
          pte.view else []) := by
  obtain ⟨env0, h0⟩ : ∃ e, rllmInit ⟨8, 64⟩ [] = some e := ⟨_, rfl⟩
  have r1 : RllmReachable default ⟨8, 64⟩ (rllmCreateRoot env0 default (some ⟨[], []⟩)).2 :=
    .step (.createRoot default (some ⟨[], []⟩)) (.init h0) rfl
  let pte : TeContext :=
    { llamaCtx := ⟨[], []⟩, tokens := [5], tokenInfo := [default], nTokens := 1, capacity := 1
      history := [], historyTail := none, redoStack := [], historyLimit := 100
      activeSequences := [0], nSequences := 1, readonly := false, kvCacheDirty := false
      logitsValid := false, suppressHistory := false, mallocFails := [] }
  have hf : ((rllmCreateRoot env0 default (some ⟨[], []⟩)).2.modify 0
      fun c => { c with tokenEditor := some pte }).Forest :=
    (r1.forest default).congr (rllmLinks_modify_of_link _ _ fun _ => rfl) rfl rfl rfl
  have hw : pte.Wf := ⟨le_rfl, le_rfl, rfl, Nat.one_pos⟩
  generalize hP : (rllmCreateRoot env0 default (some ⟨[], []⟩)).2.modify 0
      (fun c => { c with tokenEditor := some pte }) = envP at hf
  cases h0
  obtain ⟨p, hp, hpte⟩ : ∃ p, envP.heap 0 = some p ∧ p.tokenEditor = some pte := by
    subst hP; exact ⟨_, rfl, rfl⟩
  obtain ⟨env', hres⟩ : ∃ e, rllmSpawnChild default envP (some 0)
      { (default : RllmCtxConfig) with shareMode := .tokensRead } (some ⟨[], []⟩) = some (some 1, e) := by
    subst hP; exact ⟨_, rfl⟩
  exact ⟨_, _, _, pte, hf, hp, hpte, hw, by decide, hres,
    rllmSpawnChild_inherits_tokens default hf hp hpte hw (by decide) hres⟩

/-- The root `rllm_create_root` makes, its editor given `[5]` by `te_insert_tokens`: a
`TOKENS_READ` child of it starts with an empty buffer. -/
theorem rllmSpawnChild_tokensRead_empty :
    ∃ (env : RllmEnv) (p : RllmContext) (te pte : TeContext) (env' : RllmEnv) (ed : TeContext),
      RllmReachable default ⟨8, 64⟩ env ∧ env.heap 0 = some p ∧ p.tokenEditor = some te ∧
      teInsertTokens default te 0 0 (some [5]) 1 = some (.ok, pte) ∧ pte.view = [5] ∧
      rllmSpawnChild default (env.modify 0 fun c => { c with tokenEditor := some pte }) (some 0)
        { (default : RllmCtxConfig) with shareMode := .tokensRead } (some ⟨[], []⟩) =
        some (some 1, env') ∧
      (env'.heap 1).map RllmContext.tokenEditor = some (some ed) ∧ ed.view = [] := by
  obtain ⟨env0, h0⟩ : ∃ e, rllmInit ⟨8, 64⟩ [] = some e := ⟨_, rfl⟩
  have r1 : RllmReachable default ⟨8, 64⟩ (rllmCreateRoot env0 default (some ⟨[], []⟩)).2 :=
    .step (.createRoot default (some ⟨[], []⟩)) (.init h0) rfl
  obtain ⟨p, te, hp, hte, hinit, ha⟩ : ∃ p te,
      (rllmCreateRoot env0 default (some ⟨[], []⟩)).2.heap 0 = some p ∧ p.tokenEditor = some te ∧
      (teInit ⟨[], []⟩ []).1 = some te ∧ te.AllocOk := by
    cases h0; exact ⟨_, _, rfl, rfl, rfl, List.not_mem_nil _⟩
  have hi := teInit_initial hinit
  obtain ⟨pte, hins, -, -, hv, -⟩ := teInsertTokens_ready default 0 0 [5] ⟨hi.wf, hi.writable, ha⟩
    (by decide) (by simp [hi.nTokens_eq]) (List.cons_ne_nil _ _)
  obtain ⟨env', hres, ed, hed, hv'⟩ : ∃ env', rllmSpawnChild default
      ((rllmCreateRoot env0 default (some ⟨[], []⟩)).2.modify 0 fun c => { c with tokenEditor := some pte })
      (some 0) { (default : RllmCtxConfig) with shareMode := .tokensRead } (some ⟨[], []⟩) =
      some (some 1, env') ∧ ∃ ed, (env'.heap 1).map RllmContext.tokenEditor = some (some ed) ∧
        ed.view = [] := by
    cases h0; exact ⟨_, rfl, _, rfl, rfl⟩
  exact ⟨_, p, te, pte, env', ed, r1, hp, hte, hins, by simpa [TeContext.view, hi.nTokens_eq] using hv,
    hres, hed, hv'⟩

end TokenEditor
