import TokenEditor.RLLMWellFormed

/-! `rllm_shutdown` over whole runs. It frees the subtree of each listed root with
`rllm_free_context_internal`, then the arrays themselves, so the pool's entries are never read.
On every reachable environment the roots' subtrees are disjoint, so no node is freed twice,
and the nodes no root reaches (a peer of a parentless node, a root past the eighth) stay
allocated. -/
namespace TokenEditor

/-- `rllm_shutdown`: each listed root freed in turn, with the rounds `rllm_destroy` gives the
recursion. The log line, the mutex and the blocks of the two arrays are left out. -/
def rllmShutdown (env : RllmEnv) : Option (Addr → Option RllmContext) :=
  env.roots.foldlM (fun heap r => rllmFreeContextInternal (env.config.maxDepth.toNat + 1) heap r)
    env.heap

namespace RllmForest
variable {t : RllmLinks} {roots : List Addr} {n D : Nat}

theorem root_not_child (h : RllmForest t roots n D) {r p : Addr} {lp : RllmLink} (hr : r ∈ roots)
    (hp : t p = some lp) (hc : r ∈ lp.children) : False := by
  obtain ⟨lr, hlr, hnone, -⟩ := h.root hr
  rw [h.parent hp hc hlr] at hnone
  cases hnone

/-- The subtrees of two roots meet only when the roots are the same. -/
theorem root_desc_unique (h : RllmForest t roots n D) {r1 r2 y : Addr} (h1 : r1 ∈ roots)
    (h2 : r2 ∈ roots) (hy1 : RllmDesc t r1 y) (hy2 : RllmDesc t r2 y) : r1 = r2 := by
  revert hy2
  induction hy1 with
  | refl =>
    intro hy2
    cases hy2 with
    | refl => rfl
    | child _ hq hc => exact (h.root_not_child h1 hq hc).elim
  | child _ hp hc ih =>
    intro hy2
    cases hy2 with
    | refl => exact (h.root_not_child h2 hp hc).elim
    | child hq hlq hc' =>
      obtain rfl := h.unique hp hlq hc hc'
      exact ih hq

end RllmForest

/-- The nodes the roots reach are those below a listed root. -/
theorem RllmEnv.Forest.reaches_iff {env : RllmEnv} (h : env.Forest) {y : Addr} :
    env.Reaches y ↔ ∃ r ∈ env.roots, RllmDesc (rllmLinks env.heap) r y := by
  constructor
  · intro hy
    obtain ⟨ny, hny⟩ := h.reaches_alloc hy
    obtain ⟨r, -, hr, hd⟩ := h.getRoot _ hy hny rfl
    exact ⟨r, hr, hd⟩
  · rintro ⟨r, hr, hd⟩
    induction hd with
    | refl => exact .root hr
    | child _ hp hc ih =>
      obtain ⟨np, hnp, rfl⟩ := rllmLinks_alloc hp
      exact .child ih hnp hc

variable (M : LlamaModel)

/-- On every reachable environment `rllm_shutdown` frees each node its roots reach exactly
once: every free finds its node allocated (a free of a freed node would make the model
`none`), and every node no root reaches is left as it was. -/
theorem rllmShutdown_frees_reached {config : RllmEnvConfig} {env : RllmEnv}
    (hr : RllmReachable M config env) :
    ∃ heap', rllmShutdown env = some heap' ∧ (∀ y, env.Reaches y → heap' y = none) ∧
      ∀ y, ¬ env.Reaches y → heap' y = env.heap y := by
  have h := hr.forest M
  obtain ⟨heap', hs, hd, hk⟩ := rllmFreeFold_spec (rllmFreeContextInternal_spec _) h.roots_nodup
    (fun _ hr => let ⟨_, hl, _⟩ := h.root hr; h.subtreeOk hl)
    (fun _ h1 _ h2 _ hy1 hy2 => h.root_desc_unique h1 h2 hy1 hy2) env.heap fun _ _ _ _ => rfl
  exact ⟨heap', hs, fun y hy => hd y (h.reaches_iff.mp hy),
    fun y hy => hk y (mt h.reaches_iff.mpr hy)⟩

/-- A root, a child spawned under it and a peer of the root: `rllm_shutdown` frees the root and
the child, and leaves the peer, which no root reaches, allocated. -/
theorem rllmShutdown_frees_reached_family :
    ∃ env heap', RllmReachable default ⟨8, 64⟩ env ∧ env.contexts = [0, 1, 2] ∧
      rllmShutdown env = some heap' ∧ heap' 0 = none ∧ heap' 1 = none ∧ (heap' 2).isSome := by
  obtain ⟨-, -, -, env, -, -, -, -, r, hc, h2, hreach⟩ := rllmReachable_family
  obtain ⟨heap', hs, hd, hk⟩ := rllmShutdown_frees_reached default r
  have hn2 : ¬ env.Reaches 2 := fun h => by rcases (hreach 2).mp h with h | h <;> cases h
  exact ⟨env, heap', r, hc, hs, hd 0 ((hreach 0).mpr (.inl rfl)), hd 1 ((hreach 1).mpr (.inr rfl)),
    by rw [hk 2 hn2]; exact h2⟩

end TokenEditor
