import TokenEditor.RLLMStats

/-! The two arrays of the environment over whole runs. `rllm_alloc_context` writes its node at
`contexts[n_contexts]` after growing a full pool to `max(2 c, 16)` slots, and refuses once
`max_contexts` nodes are pooled; `rllm_create_root` writes `roots[n_roots]` only while fewer than
eight roots are listed, the size `rllm_init` gives that array. Every other step leaves the arrays
as they are and `rllm_destroy` only shrinks them, so on every reachable environment both writes
land inside their blocks. -/
namespace TokenEditor

/-- The fields of the environment that hold its two arrays and their limits. -/
def RllmEnv.arrays (env : RllmEnv) : List Addr × Nat × List Addr × RllmEnvConfig :=
  (env.contexts, env.contextCapacity, env.roots, env.config)

/-- The pool fits in its block of `16 · 2^k` slots and under `max_contexts`; the listed roots fit
in their eight slots. -/
structure RllmEnv.PoolOk (env : RllmEnv) : Prop where
  capacity : ∃ k, env.contextCapacity = 16 * 2 ^ k
  contexts_le : env.contexts.length ≤ env.contextCapacity
  contexts_le_max : env.contexts.length ≤ env.config.maxContexts.toNat
  roots_le : env.roots.length ≤ 8

@[simp] theorem RllmEnv.fire_arrays (env : RllmEnv) (s : Bool) (e : RllmEvent) :
    (env.fire s e).arrays = env.arrays := by unfold RllmEnv.fire; split <;> rfl

@[simp] theorem RllmEnv.modify_arrays (env : RllmEnv) (a : Addr) (f : RllmContext → RllmContext) :
    (env.modify a f).arrays = env.arrays := rfl

theorem rllmNewEditor_arrays {env env' : RllmEnv} {l : LlamaContext} {ed : Option TeContext}
    (h : rllmNewEditor env l = (ed, env')) : env'.arrays = env.arrays := by
  have := congrArg Prod.snd h
  subst this
  rfl

theorem rllmAddChild_arrays {env env' : RllmEnv} {pa a : Addr} (h : rllmAddChild env pa a = some env') :
    env'.arrays = env.arrays := by
  unfold rllmAddChild at h
  simp only [Option.bind_eq_bind] at h
  obtain ⟨p, -, h⟩ := Option.bind_eq_some.mp h
  obtain ⟨c, -, h⟩ := Option.bind_eq_some.mp h
  by_cases hfull : p.childrenCapacity ≤ p.children.length
  · cases hb : env.mallocFails.headD false <;>
      simp only [hfull, rllmMalloc, hb, if_true, Bool.not_false, Bool.not_true, Bool.false_eq_true,
        if_false, Option.some.injEq] at h <;> subst h <;> rfl
  · simp only [hfull, if_false, Bool.not_true, Bool.false_eq_true, Option.some.injEq] at h
    subst h; rfl

theorem rllmRemoveChild_arrays {env env' : RllmEnv} {p a : Addr} (h : rllmRemoveChild env p a = some env') :
    env'.arrays = env.arrays := by
  unfold rllmRemoveChild at h
  simp only [Option.bind_eq_bind] at h
  obtain ⟨q, -, h⟩ := Option.bind_eq_some.mp h
  split_ifs at h
  · obtain ⟨-, -, h⟩ := Option.bind_eq_some.mp h
    cases h; rfl
  · cases h; rfl

section
variable (M : LlamaModel)

theorem rllmInherit_arrays {env env' : RllmEnv} {p : RllmContext} {mode : RllmShareMode}
    {ed ed' : TeContext} (h : rllmInherit M env p mode ed = some (ed', env')) :
    env'.arrays = env.arrays := by
  obtain ⟨l, rfl⟩ := rllmInherit_env M h; rfl

end

/-- `rllm_alloc_context` leaves the arrays as they were, or appends its node to a pool that held
fewer than `max_contexts` nodes, in a block grown to `max(2 c, 16)` slots when it was full. -/
theorem rllmAllocContext_arrays (env : RllmEnv) :
    (rllmAllocContext env).2.arrays = env.arrays ∨
      env.contexts.length < env.config.maxContexts.toNat ∧ ∃ a, (rllmAllocContext env).2.arrays =
        (env.contexts ++ [a], if env.contextCapacity ≤ env.contexts.length then
          max (env.contextCapacity * 2) 16 else env.contextCapacity, env.roots, env.config) := by
  unfold rllmAllocContext
  by_cases h1 : env.config.maxContexts.toNat ≤ env.contexts.length
  · rw [if_pos h1]; exact .inl rfl
  rw [if_neg h1]
  have h1' := Nat.lt_of_not_le h1
  dsimp only [rllmMalloc]
  by_cases h2 : env.contextCapacity ≤ env.contexts.length
  · rw [if_pos h2, if_pos h2]
    cases env.mallocFails.headD false <;> cases env.mallocFails.tail.headD false <;>
      cases env.mallocFails.tail.tail.headD false <;> cases env.mallocFails.tail.tail.tail.headD false <;>
      first | exact .inl rfl | exact .inr ⟨h1', _, rfl⟩
  · rw [if_neg h2, if_neg h2]
    cases env.mallocFails.headD false <;> cases env.mallocFails.tail.headD false <;>
      cases env.mallocFails.tail.tail.headD false <;>
      first | exact .inl rfl | exact .inr ⟨h1', _, rfl⟩

namespace RllmEnv.PoolOk
variable {env env' : RllmEnv}

/-- Shrinking the arrays under the same limits keeps them in their blocks. -/
theorem shrink (h : env.PoolOk) (hc : env'.contexts.length ≤ env.contexts.length)
    (hcap : env'.contextCapacity = env.contextCapacity) (hr : env'.roots.length ≤ env.roots.length)
    (hcfg : env'.config = env.config) : env'.PoolOk where
  capacity := hcap ▸ h.capacity
  contexts_le := hcap ▸ hc.trans h.contexts_le
  contexts_le_max := hcfg ▸ hc.trans h.contexts_le_max
  roots_le := hr.trans h.roots_le

theorem congr (h : env.PoolOk) (he : env'.arrays = env.arrays) : env'.PoolOk := by
  simp only [RllmEnv.arrays, Prod.mk.injEq] at he
  obtain ⟨hc, hcap, hr, hcfg⟩ := he
  exact h.shrink (hc ▸ le_rfl) hcap (hr ▸ le_rfl) hcfg

theorem fire (h : env.PoolOk) (s : Bool) (e : RllmEvent) : (env.fire s e).PoolOk :=
  h.congr (RllmEnv.fire_arrays _ _ _)

theorem modify (h : env.PoolOk) (a : Addr) (f : RllmContext → RllmContext) :
    (env.modify a f).PoolOk :=
  h.congr rfl

theorem discard (h : env.PoolOk) (a : Addr) : (rllmDiscard env a).PoolOk :=
  h.shrink (List.length_erase_le _ _) rfl le_rfl rfl

theorem alloc (h : env.PoolOk) : (rllmAllocContext env).2.PoolOk := by
  rcases rllmAllocContext_arrays env with he | ⟨hmax, a, he⟩
  · exact h.congr he
  simp only [RllmEnv.arrays, Prod.mk.injEq] at he
  obtain ⟨hc, hcap, hr, hcfg⟩ := he
  obtain ⟨k, hk⟩ := h.capacity
  have hle := h.contexts_le
  refine ⟨?_, ?_, ?_, hr ▸ h.roots_le⟩ <;>
    simp only [hc, hcap, hcfg, List.length_append, List.length_singleton]
  · split_ifs
    · have h16 : 16 ≤ 16 * 2 ^ k * 2 := by have := Nat.one_le_two_pow (n := k); omega
      exact ⟨k + 1, by rw [hk, max_eq_left h16, Nat.pow_succ, Nat.mul_assoc]⟩
    · exact ⟨k, hk⟩
  · split_ifs <;> omega
  · omega

theorem createRoot (h : env.PoolOk) (config : RllmCtxConfig) (newCtx : Option LlamaContext) :
    (rllmCreateRoot env config newCtx).2.PoolOk := by
  have hA := h.alloc
  unfold rllmCreateRoot
  split
  · next heq => rw [heq] at hA; exact hA
  next a env1 heq =>
  rw [heq] at hA
  have h1 := hA.modify a fun c => { c with relation := .root, config := config, depth := 0 }
  dsimp only
  split
  · exact h1.discard a
  split
  · next heq' => exact (h1.congr (rllmNewEditor_arrays heq')).discard a
  next ed env3 heq' =>
  have h3 := (h1.congr (rllmNewEditor_arrays heq')).modify a fun c => { c with tokenEditor := some ed }
  refine RllmEnv.PoolOk.fire ?_ _ _
  split
  · next hlt =>
    exact ⟨h3.capacity, h3.contexts_le, h3.contexts_le_max,
      by rw [List.length_append, List.length_singleton]; omega⟩
  · exact h3

variable (M : LlamaModel)

theorem spawnChild (h : env.PoolOk) {parent : Option Addr} {config : RllmCtxConfig}
    {newCtx : Option LlamaContext} {r : Option Addr}
    (hres : rllmSpawnChild M env parent config newCtx = some (r, env')) : env'.PoolOk := by
  unfold rllmSpawnChild at hres
  rcases parent with _ | pa
  · cases hres; exact h
  simp only [Option.bind_eq_bind] at hres
  obtain ⟨p, -, hres⟩ := Option.bind_eq_some.mp hres
  split_ifs at hres
  · cases hres; exact h
  have hA := h.alloc
  split at hres
  · next heq => rw [heq] at hA; cases hres; exact hA
  next a env1 heq =>
  rw [heq] at hA
  have h1 := hA.modify a fun c => { c with relation := .child, config := config }
  split at hres
  · cases hres; exact h1.discard a
  split at hres
  · next heq' => cases hres; exact (h1.congr (rllmNewEditor_arrays heq')).discard a
  next ed env3 heq' =>
  obtain ⟨⟨ed4, env4⟩, hinh, hres⟩ := Option.bind_eq_some.mp hres
  obtain ⟨env5, hadd, hres⟩ := Option.bind_eq_some.mp hres
  obtain ⟨c, -, hres⟩ := Option.bind_eq_some.mp hres
  cases hres
  have h4 := ((h1.congr (rllmNewEditor_arrays heq')).congr (rllmInherit_arrays M hinh)).modify a
    fun c => { c with tokenEditor := some ed4 }
  refine (RllmEnv.PoolOk.fire ?_ _ _).fire _ _
  exact (h4.congr (rllmAddChild_arrays hadd)).congr rfl

theorem fork (h : env.PoolOk) {source : Addr} {newCtx : Option LlamaContext} {r : Option Addr}
    (hres : rllmFork M env source newCtx = some (r, env')) : env'.PoolOk := by
  unfold rllmFork at hres
  simp only [Option.bind_eq_bind] at hres
  obtain ⟨s, -, hres⟩ := Option.bind_eq_some.mp hres
  obtain ⟨⟨r1, env1⟩, hsp, hres⟩ := Option.bind_eq_some.mp hres
  have h1 := h.spawnChild M hsp
  rcases r1 with _ | a <;> cases hres
  · exact h1
  · exact h1.modify a _

theorem createPeer (h : env.PoolOk) {peer : Addr} {config : RllmCtxConfig}
    {newCtx : Option LlamaContext} {r : Option Addr}
    (hres : rllmCreatePeer env peer config newCtx = some (r, env')) : env'.PoolOk := by
  unfold rllmCreatePeer at hres
  simp only [Option.bind_eq_bind] at hres
  obtain ⟨p, -, hres⟩ := Option.bind_eq_some.mp hres
  have hA := h.alloc
  split at hres
  · next heq => rw [heq] at hA; cases hres; exact hA
  next a env1 heq =>
  rw [heq] at hA
  have h1 := hA.modify a fun c =>
    { c with relation := .peer, config := config, depth := p.depth, parent := p.parent }
  split at hres
  · cases hres; exact h1.discard a
  split at hres
  · next heq' => cases hres; exact (h1.congr (rllmNewEditor_arrays heq')).discard a
  next ed env3 heq' =>
  have h3 := (h1.congr (rllmNewEditor_arrays heq')).modify a fun c => { c with tokenEditor := some ed }
  obtain ⟨env5, hm, hres⟩ := Option.bind_eq_some.mp hres
  cases hres
  refine RllmEnv.PoolOk.fire ?_ _ _
  split at hm
  · exact h3.congr (rllmAddChild_arrays hm)
  · cases hm; exact h3

theorem destroy (h : env.PoolOk) {a : Addr} {e : RllmError}
    (hres : rllmDestroy env a = some (e, env')) : env'.PoolOk := by
  unfold rllmDestroy at hres
  simp only [Option.bind_eq_bind] at hres
  obtain ⟨node, -, hres⟩ := Option.bind_eq_some.mp hres
  obtain ⟨env2, hm, hres⟩ := Option.bind_eq_some.mp hres
  obtain ⟨heap', -, hres⟩ := Option.bind_eq_some.mp hres
  cases hres
  have h2 : env2.PoolOk := by
    split at hm
    · exact (h.fire _ _).congr (rllmRemoveChild_arrays hm)
    · cases hm; exact h.fire _ _
  exact h2.shrink (List.length_erase_le _ _) rfl (List.length_erase_le _ _) rfl

theorem step (h : env.PoolOk) {c : RllmCall} (hs : rllmStep M env c = some env') : env'.PoolOk := by
  cases c with
  | createRoot config newCtx => cases hs; exact h.createRoot config newCtx
  | spawnChild parent config newCtx =>
    obtain ⟨⟨_, _⟩, hr, rfl⟩ := Option.map_eq_some'.mp hs
    exact h.spawnChild M hr
  | fork source newCtx =>
    obtain ⟨⟨_, _⟩, hr, rfl⟩ := Option.map_eq_some'.mp hs
    exact h.fork M hr
  | createPeer peer config newCtx =>
    obtain ⟨⟨_, _⟩, hr, rfl⟩ := Option.map_eq_some'.mp hs
    exact h.createPeer hr
  | destroy a =>
    obtain ⟨⟨_, _⟩, hr, rfl⟩ := Option.map_eq_some'.mp hs
    exact h.destroy hr

end RllmEnv.PoolOk

variable (M : LlamaModel)

theorem RllmReachable.poolOk {config : RllmEnvConfig} {env : RllmEnv}
    (hr : RllmReachable M config env) : env.PoolOk := by
  induction hr with
  | init h =>
    simp only [rllmInit, rllmMalloc] at h
    split_ifs at h
    cases h
    exact ⟨⟨0, rfl⟩, Nat.zero_le _, Nat.zero_le _, Nat.zero_le _⟩
  | step _ _ hs ih => exact ih.step M hs

/-- On every reachable environment the writes `contexts[n_contexts]` of `rllm_alloc_context` and
`roots[n_roots]` of `rllm_create_root` stay inside their blocks: the pool holds at most
`max_contexts` nodes in a block of `16 · 2^k` slots, and at most eight roots are listed. -/
theorem rllmReachable_arrays {config : RllmEnvConfig} {env : RllmEnv}
    (hr : RllmReachable M config env) :
    (∃ k, env.contextCapacity = 16 * 2 ^ k) ∧ env.contexts.length ≤ env.contextCapacity ∧
      env.contexts.length ≤ env.config.maxContexts.toNat ∧ env.roots.length ≤ 8 :=
  let h := hr.poolOk M
  ⟨h.capacity, h.contexts_le, h.contexts_le_max, h.roots_le⟩

/-- Seventeen calls of `rllm_create_root` after `rllm_init`: the pool holds 17 nodes, so its
block of `16 · 2^k` slots has grown, and only the first eight roots are listed. -/
theorem rllmReachable_arrays_seventeen_roots :
    ∃ env, RllmReachable default ⟨8, 64⟩ env ∧ env.contexts.length = 17 ∧ env.roots.length = 8 ∧
      (∃ k, env.contextCapacity = 16 * 2 ^ k) ∧ env.contexts.length ≤ env.contextCapacity ∧
      env.contexts.length ≤ env.config.maxContexts.toNat ∧ env.roots.length ≤ 8 := by
  obtain ⟨env0, h0⟩ : ∃ e, rllmInit ⟨8, 64⟩ [] = some e := ⟨_, rfl⟩
  have r := (RllmReachable.init (M := default) h0).createRoots default default (some ⟨[], []⟩) 17
  have hc : ((fun e => (rllmCreateRoot e default (some ⟨[], []⟩)).2)^[17] env0).contexts.length = 17 ∧
      ((fun e => (rllmCreateRoot e default (some ⟨[], []⟩)).2)^[17] env0).roots.length = 8 := by
    cases h0; decide
  exact ⟨_, r, hc.1, hc.2, rllmReachable_arrays default r⟩

end TokenEditor
