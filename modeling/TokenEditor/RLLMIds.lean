import TokenEditor.RLLMMachine

/-! Context ids. `rllm_alloc_context` hands out `next_ctx_id++` with no check against the pool, so
an id is a value of a 32-bit counter that every successful creation advances: a round of
`rllm_create_root` and `rllm_destroy` advances it by one and leaves the pool as it was. It also
counts the node in `total_contexts_created` before the creation can still fail. -/

namespace TokenEditor

/-- `RLLM_INVALID_CTX_ID`, `(rllm_ctx_id_t)-1`. -/
def rllmInvalidCtxId : BitVec 32 := -1

section Round
variable {env : RllmEnv}

/-- With room in the pool and allocations succeeding, `rllm_alloc_context` puts a fresh node with
the next id at `nextAddr`. -/
theorem rllmAllocContext_ok (hmax : env.contexts.length < env.config.maxContexts.toNat)
    (hcap : env.contexts.length < env.contextCapacity) (hm : env.mallocFails = []) :
    rllmAllocContext env = (some env.nextAddr,
      { env with heap := Function.update env.heap env.nextAddr (some
          { (default : RllmContext) with id := env.nextCtxId, state := .idle, childrenCapacity := 8
                                         queueCapacity := 32, messageQueue := List.replicate 32 default })
                 nextAddr := env.nextAddr + 1, nextCtxId := env.nextCtxId + 1
                 contexts := env.contexts ++ [env.nextAddr]
                 totalContextsCreated := env.totalContextsCreated + 1 }) := by
  cases env
  subst hm
  simp only [rllmAllocContext, rllmMalloc, if_neg (Nat.not_le.2 hmax), if_neg (Nat.not_le.2 hcap),
    List.headD_nil, List.tail_nil, Bool.not_false, Bool.and_self, Bool.not_true,
    Bool.false_eq_true, ↓reduceIte]

/-- With room in the pool and the root array and allocations succeeding, `rllm_create_root` adds
a parentless, childless root with the next id at `nextAddr`. -/
theorem rllmCreateRoot_ok (cfg : RllmCtxConfig) (lctx : LlamaContext)
    (hmax : env.contexts.length < env.config.maxContexts.toNat)
    (hcap : env.contexts.length < env.contextCapacity) (hm : env.mallocFails = [])
    (hroots : env.roots.length < 8) (hcb : env.onContextCreate = false) :
    ∃ n : RllmContext, n.id = env.nextCtxId ∧ n.parent = none ∧ n.children = [] ∧
      rllmCreateRoot env cfg (some lctx) = (some env.nextAddr,
        { env with heap := Function.update env.heap env.nextAddr (some n)
                   nextAddr := env.nextAddr + 1, nextCtxId := env.nextCtxId + 1
                   contexts := env.contexts ++ [env.nextAddr], roots := env.roots ++ [env.nextAddr]
                   totalContextsCreated := env.totalContextsCreated + 1 }) := by
  obtain ⟨ed, hed⟩ : ∃ ed, (teInit lctx []).1 = some ed := ⟨_, rfl⟩
  have hheap : (teInit lctx []).2 = [] := rfl
  refine ⟨{ (default : RllmContext) with
      id := env.nextCtxId, relation := .root, state := .idle, childrenCapacity := 8, depth := 0
      tokenEditor := some ed, config := cfg, queueCapacity := 32
      messageQueue := List.replicate 32 default }, rfl, rfl, rfl, ?_⟩
  rw [rllmCreateRoot, rllmAllocContext_ok hmax hcap hm]
  simp only [RllmEnv.modify, Function.update_same, Option.map_some', Function.update_idem,
    rllmNewEditor, hm, hed, hheap, if_pos hroots, RllmEnv.fire, hcb, Bool.false_eq_true,
    ↓reduceIte]

/-- With room in the pool and allocations succeeding, a `rllm_create_root` whose model context
cannot be created returns `NULL` with the node still counted: the pool, the roots and the tree
are as they were, `total_contexts_created` is one higher. -/
theorem rllmCreateRoot_none_counted (cfg : RllmCtxConfig)
    (hmax : env.contexts.length < env.config.maxContexts.toNat)
    (hcap : env.contexts.length < env.contextCapacity) (hm : env.mallocFails = [])
    (hfresh : env.heap env.nextAddr = none) (hpool : env.nextAddr ∉ env.contexts) :
    rllmCreateRoot env cfg none =
      (none, { env with nextAddr := env.nextAddr + 1, nextCtxId := env.nextCtxId + 1
                        totalContextsCreated := env.totalContextsCreated + 1 }) := by
  have hheap : Function.update env.heap env.nextAddr none = env.heap :=
    Function.update_eq_self_iff.mpr hfresh.symm
  rw [rllmCreateRoot, rllmAllocContext_ok hmax hcap hm]
  simp only [rllmDiscard, RllmEnv.modify, Function.update_idem, hheap,
    List.erase_append_right _ hpool, List.erase_cons_head, List.append_nil]

/-- `rllm_destroy` of a parentless, childless node with the destroy callback unset: out of the
roots and the pool, freed. -/
theorem rllmDestroy_leaf {a : Addr} {n : RllmContext} (h : env.heap a = some n)
    (hp : n.parent = none) (hc : n.children = []) (hcb : env.onContextDestroy = false) :
    rllmDestroy env a = some (.ok, { env with
      roots := env.roots.erase a, contexts := env.contexts.erase a
      heap := Function.update env.heap a none }) := by
  simp only [rllmDestroy, h, RllmEnv.fire, hcb, hp, Bool.false_eq_true, ↓reduceIte,
    Option.bind_eq_bind, Option.some_bind, rllmFreeContextInternal, hc, List.foldlM_nil,
    Option.pure_def]

/-- Between two rounds: the pool and the roots hold only `a0`, which holds `n0`; allocations
succeed, the pool has room, and the create and destroy callbacks are unset. -/
structure RllmEnv.Idle (env : RllmEnv) (a0 : Addr) (n0 : RllmContext) : Prop where
  contexts : env.contexts = [a0]
  roots : env.roots = [a0]
  heap : env.heap a0 = some n0
  lt : a0 < env.nextAddr
  mallocFails : env.mallocFails = []
  maxContexts : 1 < env.config.maxContexts.toNat
  capacity : 1 < env.contextCapacity
  onCreate : env.onContextCreate = false
  onDestroy : env.onContextDestroy = false

variable {a0 : Addr} {n0 : RllmContext}

/-- A round of `rllm_create_root` and `rllm_destroy` of the new root: the new root carries the
counter's id, and the environment is idle again with the counter one further. -/
theorem RllmEnv.Idle.round (h : env.Idle a0 n0) (cfg : RllmCtxConfig) (lctx : LlamaContext) :
    ∃ E n, rllmCreateRoot env cfg (some lctx) = (some env.nextAddr, E) ∧
      E.contexts = [a0, env.nextAddr] ∧ E.heap a0 = some n0 ∧ E.heap env.nextAddr = some n ∧
      n.id = env.nextCtxId ∧
      ∃ E', rllmDestroy E env.nextAddr = some (.ok, E') ∧ E'.Idle a0 n0 ∧
        E'.nextCtxId = env.nextCtxId + 1 := by
  obtain ⟨n, hid, hp, hc, hcr⟩ := rllmCreateRoot_ok cfg lctx
    (by rw [h.contexts]; exact h.maxContexts) (by rw [h.contexts]; exact h.capacity)
    h.mallocFails (by rw [h.roots, List.length_singleton]; decide) h.onCreate
  have hne : a0 ≠ env.nextAddr := Nat.ne_of_lt h.lt
  have ha0 : Function.update env.heap env.nextAddr (some n) a0 = some n0 := by
    rw [Function.update_noteq hne, h.heap]
  refine ⟨_, n, hcr, by rw [h.contexts]; rfl, ha0, Function.update_same _ _ _, hid, _,
    rllmDestroy_leaf (Function.update_same _ _ _) hp hc h.onDestroy,
    ⟨?_, ?_, (show Function.update (Function.update env.heap env.nextAddr (some n)) env.nextAddr none a0 =
      some n0 by rw [Function.update_noteq hne, ha0]),
      Nat.lt_succ_of_lt h.lt, h.mallocFails,
      h.maxContexts, h.capacity, h.onCreate, h.onDestroy⟩, rfl⟩ <;>
    simp [h.contexts, h.roots, hne]

variable (M : LlamaModel) {config : RllmEnvConfig}

/-- `k` rounds from an idle reachable environment reach an idle one with the counter `k` further.
-/
theorem RllmEnv.Idle.rounds (cfg : RllmCtxConfig) (lctx : LlamaContext) (k : Nat) :
    ∀ {env : RllmEnv}, env.Idle a0 n0 → RllmReachable M config env →
      ∃ env', RllmReachable M config env' ∧ env'.Idle a0 n0 ∧
        env'.nextCtxId = env.nextCtxId + BitVec.ofNat 32 k := by
  induction k with
  | zero => exact fun h hr => ⟨_, hr, h, by simp⟩
  | succ k ih =>
    intro env h hr
    obtain ⟨E, n, hc, -, -, -, -, E', hd, hE', hid⟩ := h.round cfg lctx
    have hrE' : RllmReachable M config E' :=
      .step (.destroy env.nextAddr) (.step (.createRoot cfg (some lctx)) hr
        (by rw [rllmStep, hc])) (by rw [rllmStep, hd]; rfl)
    obtain ⟨env', hr', h', hid'⟩ := ih hE' hrE'
    exact ⟨env', hr', h', by rw [hid', hid]; bv_omega⟩

end Round

variable (M : LlamaModel)

/-- From `rllm_init` with limits `{8, 64}`: one root `A`, then `2^32 - 2` rounds of
`rllm_create_root` and `rllm_destroy` of the new root. The next root created gets the id
`0xFFFFFFFF`, which is `RLLM_INVALID_CTX_ID`; after destroying it, the next root gets id 0, the
id of `A`, which is still live, and `rllm_get_context` of that id finds `A` only. -/
theorem rllmReachable_ctxId_reuse (cfg : RllmCtxConfig) (lctx : LlamaContext) :
    (∃ env a n, RllmReachable M ⟨8, 64⟩ env ∧ a ∈ env.contexts ∧ env.heap a = some n ∧
      n.id = rllmInvalidCtxId) ∧
    ∃ env a b na nb, RllmReachable M ⟨8, 64⟩ env ∧ env.contexts = [a, b] ∧ a ≠ b ∧
      env.heap a = some na ∧ env.heap b = some nb ∧ na.id = nb.id ∧
      rllmGetContext env nb.id = some (some a) := by
  obtain ⟨env0, h0⟩ : ∃ e, rllmInit ⟨8, 64⟩ [] = some e := ⟨_, rfl⟩
  have e0 : env0 =
      { heap := fun _ => none, nextAddr := 0, contexts := [], contextCapacity := 16, nextCtxId := 0
        roots := [], config := ⟨8, 64⟩, totalTokensProcessed := 0, totalContextsCreated := 0
        totalRecursions := 0, peakDepth := 0, onContextCreate := false, onContextDestroy := false
        onRecursion := false, events := [], mallocFails := [] } :=
    Option.some.inj (h0.symm.trans rfl)
  obtain ⟨n0, hn0, -, -, hcr0⟩ := rllmCreateRoot_ok cfg lctx
    (show env0.contexts.length < env0.config.maxContexts.toNat by rw [e0]; decide)
    (by rw [e0]; decide) (by rw [e0]) (by rw [e0]; decide) (by rw [e0])
  have hr1 : RllmReachable M ⟨8, 64⟩ (rllmCreateRoot env0 cfg (some lctx)).2 :=
    .step (.createRoot cfg (some lctx)) (.init h0) rfl
  have hI1 : (rllmCreateRoot env0 cfg (some lctx)).2.Idle 0 n0 := by
    rw [hcr0, e0]
    exact ⟨rfl, rfl, by simp, Nat.zero_lt_one, rfl,
      show 1 < 64 by decide, show 1 < 16 by decide, rfl, rfl⟩
  obtain ⟨envA, hrA, hA, hidA⟩ := hI1.rounds M cfg lctx (2 ^ 32 - 2) hr1
  obtain ⟨E, n, hc, hctx, -, hn, hnid, E', hd, hE', hid'⟩ := hA.round cfg lctx
  have hrE : RllmReachable M ⟨8, 64⟩ E := .step (.createRoot cfg (some lctx)) hrA (by rw [rllmStep, hc])
  have hrE' : RllmReachable M ⟨8, 64⟩ E' :=
    .step (.destroy envA.nextAddr) hrE (by rw [rllmStep, hd]; rfl)
  have hnA : envA.nextCtxId = rllmInvalidCtxId := by
    rw [hidA, show (rllmCreateRoot env0 cfg (some lctx)).2.nextCtxId = 1 by rw [hcr0, e0]; rfl]
    decide
  refine ⟨⟨E, envA.nextAddr, n, hrE, by rw [hctx]; simp, hn, by rw [hnid, hnA]⟩, ?_⟩
  obtain ⟨F, m, hcF, hctxF, hF0, hFm, hmid, -⟩ := hE'.round cfg lctx
  have hrF : RllmReachable M ⟨8, 64⟩ F :=
    .step (.createRoot cfg (some lctx)) hrE' (by rw [rllmStep, hcF])
  have hm0 : m.id = 0 := by rw [hmid, hid', hnA]; decide
  replace hn0 : n0.id = 0 := by rw [hn0, e0]
  refine ⟨F, 0, E'.nextAddr, n0, m, hrF, hctxF, Nat.ne_of_lt hE'.lt, hF0, hFm, by rw [hn0, hm0], ?_⟩
  simp only [rllmGetContext, hctxF, rllmGetContext.go, hF0, Option.bind_eq_bind, Option.some_bind,
    hn0, hm0, if_true]

/-- From `rllm_init` with limits `{8, 64}`: a `rllm_create_root` whose model context cannot be
created returns `NULL`, and yet `total_contexts_created` goes from 0 to 1. -/
theorem rllmCreateRoot_failure_counted (cfg : RllmCtxConfig) :
    ∃ env0, rllmInit ⟨8, 64⟩ [] = some env0 ∧ RllmReachable M ⟨8, 64⟩ env0 ∧
      env0.totalContextsCreated = 0 ∧
      rllmCreateRoot env0 cfg none =
        (none, { env0 with nextAddr := 1, nextCtxId := 1, totalContextsCreated := 1 }) := by
  obtain ⟨env0, h0⟩ : ∃ e, rllmInit ⟨8, 64⟩ [] = some e := ⟨_, rfl⟩
  refine ⟨env0, h0, .init h0, ?_⟩
  cases h0
  exact ⟨rfl, rllmCreateRoot_none_counted cfg (by decide) (by decide) rfl rfl (List.not_mem_nil _)⟩

end TokenEditor
