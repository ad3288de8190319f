import TokenEditor.RLLMEnv

/-! The environment as a state machine over the tree-shaping calls, and the nodes its roots
reach through children links. A creation call may fail anywhere; a call on a freed node is
undefined in the source and has no step here. -/
namespace TokenEditor

/-- A call that creates or destroys nodes. -/
inductive RllmCall
  | createRoot (config : RllmCtxConfig) (newCtx : Option LlamaContext)
  | spawnChild (parent : Addr) (config : RllmCtxConfig) (newCtx : Option LlamaContext)
  | fork (source : Addr) (newCtx : Option LlamaContext)
  | createPeer (peer : Addr) (config : RllmCtxConfig) (newCtx : Option LlamaContext)
  | destroy (a : Addr)

variable (M : LlamaModel)

def rllmStep (env : RllmEnv) : RllmCall → Option RllmEnv
  | .createRoot config newCtx => some (rllmCreateRoot env config newCtx).2
  | .spawnChild parent config newCtx => (rllmSpawnChild M env (some parent) config newCtx).map (·.2)
  | .fork source newCtx => (rllmFork M env source newCtx).map (·.2)
  | .createPeer peer config newCtx => (rllmCreatePeer env peer config newCtx).map (·.2)
  | .destroy a => (rllmDestroy env a).map (·.2)

/-- The environments reachable from a successful `rllm_init` with limits `config`. -/
inductive RllmReachable (config : RllmEnvConfig) : RllmEnv → Prop
  | init {heap : List Bool} {env : RllmEnv} (h : rllmInit config heap = some env) :
      RllmReachable config env
  | step {env env' : RllmEnv} (c : RllmCall) (h : RllmReachable config env)
      (hs : rllmStep M env c = some env') : RllmReachable config env'

/-- The nodes `env->roots` reach through children links. -/
inductive RllmEnv.Reaches (env : RllmEnv) : Addr → Prop
  | root {r : Addr} : r ∈ env.roots → env.Reaches r
  | child {p c : Addr} {node : RllmContext} : env.Reaches p → env.heap p = some node →
      c ∈ node.children → env.Reaches c

/-- A root and one peer of it: both are in the pool, but only the root is reached from
`env->roots`, since the peer of a node without a parent is linked nowhere. -/
theorem rllmCreatePeer_of_root_unreached (cfg : RllmCtxConfig) (lctx : LlamaContext) :
    ∃ env0 env1 env2, rllmInit ⟨8, 64⟩ [] = some env0 ∧
      rllmCreateRoot env0 cfg (some lctx) = (some 0, env1) ∧
      rllmCreatePeer env1 0 cfg (some lctx) = some (some 1, env2) ∧
      RllmReachable M ⟨8, 64⟩ env2 ∧ env2.contexts = [0, 1] ∧ env2.roots = [0] ∧
      ¬ env2.Reaches 1 := by
  obtain ⟨env0, h0⟩ : ∃ e, rllmInit ⟨8, 64⟩ [] = some e := ⟨_, rfl⟩
  obtain ⟨env1, h1⟩ : ∃ e, rllmCreateRoot env0 cfg (some lctx) = (some 0, e) := by
    cases h0; exact ⟨_, rfl⟩
  obtain ⟨env2, h2⟩ : ∃ e, rllmCreatePeer env1 0 cfg (some lctx) = some (some 1, e) := by
    cases h0; cases h1; exact ⟨_, rfl⟩
  have r2 : RllmReachable M ⟨8, 64⟩ env2 := .step (.createPeer 0 cfg (some lctx))
    (.step (.createRoot cfg (some lctx)) (.init h0) (by rw [rllmStep, h1])) (by rw [rllmStep, h2]; rfl)
  cases h0; cases h1; cases h2
  refine ⟨_, _, _, rfl, rfl, rfl, r2, rfl, rfl, ?_⟩
  suffices h : ∀ x, RllmEnv.Reaches _ x → x = 0 from fun h1 => absurd (h 1 h1) (by decide)
  intro x hx
  induction hx with
  | root h => exact List.mem_singleton.mp h
  | child _ hn hc ih =>
    subst ih
    cases hn
    exact absurd hc (List.not_mem_nil _)

/-- Repeated `rllm_create_root` keeps the environment reachable. -/
theorem RllmReachable.createRoots {config : RllmEnvConfig} {env : RllmEnv}
    (h : RllmReachable M config env) (cfg : RllmCtxConfig) (newCtx : Option LlamaContext) (k : Nat) :
    RllmReachable M config ((fun e => (rllmCreateRoot e cfg newCtx).2)^[k] env) := by
  induction k with
  | zero => exact h
  | succ k ih => rw [Function.iterate_succ_apply']; exact .step (.createRoot cfg newCtx) ih rfl

/-- The environment the examples run on: from `rllm_init`, a root `0`, a child `1` spawned
under it and a peer `2` of the root. The roots reach the root and the child, not the peer. -/
theorem rllmReachable_family : ∃ env0 env1 env2 env3, rllmInit ⟨8, 64⟩ [] = some env0 ∧
    rllmCreateRoot env0 default (some ⟨[], []⟩) = (some 0, env1) ∧
    rllmSpawnChild default env1 (some 0) default (some ⟨[], []⟩) = some (some 1, env2) ∧
    rllmCreatePeer env2 0 default (some ⟨[], []⟩) = some (some 2, env3) ∧
    RllmReachable default ⟨8, 64⟩ env3 ∧ env3.contexts = [0, 1, 2] ∧ (env3.heap 2).isSome ∧
    ∀ x, env3.Reaches x ↔ x = 0 ∨ x = 1 := by
  obtain ⟨env0, h0⟩ : ∃ e, rllmInit ⟨8, 64⟩ [] = some e := ⟨_, rfl⟩
  obtain ⟨env1, h1⟩ : ∃ e, rllmCreateRoot env0 default (some ⟨[], []⟩) = (some 0, e) := by
    cases h0; exact ⟨_, rfl⟩
  obtain ⟨env2, h2⟩ : ∃ e, rllmSpawnChild default env1 (some 0) default (some ⟨[], []⟩) =
      some (some 1, e) := by
    cases h0; cases h1; exact ⟨_, rfl⟩
  obtain ⟨env3, h3⟩ : ∃ e, rllmCreatePeer env2 0 default (some ⟨[], []⟩) = some (some 2, e) := by
    cases h0; cases h1; cases h2; exact ⟨_, rfl⟩
  have r1 : RllmReachable default ⟨8, 64⟩ env1 :=
    .step (.createRoot default (some ⟨[], []⟩)) (.init h0) (by rw [rllmStep, h1])
  have r3 : RllmReachable default ⟨8, 64⟩ env3 := .step (.createPeer 0 default (some ⟨[], []⟩))
    (.step (.spawnChild 0 default (some ⟨[], []⟩)) r1 (by rw [rllmStep, h2]; rfl))
    (by rw [rllmStep, h3]; rfl)
  refine ⟨env0, env1, env2, env3, h0, h1, h2, h3, r3, ?_⟩
  cases h0; cases h1; cases h2; cases h3
  refine ⟨rfl, rfl, fun x => ⟨fun hx => ?_, ?_⟩⟩
  · induction hx with
    | root h => exact .inl (List.mem_singleton.mp h)
    | child _ hn hc ih =>
      rcases ih with rfl | rfl <;> cases hn
      · exact .inr (List.mem_singleton.mp hc)
      · exact absurd hc (List.not_mem_nil _)
  · rintro (rfl | rfl)
    · exact .root (List.mem_singleton_self 0)
    · exact .child (.root (List.mem_singleton_self 0)) rfl (List.mem_singleton_self 1)

end TokenEditor
