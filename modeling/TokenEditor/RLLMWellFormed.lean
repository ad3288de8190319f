import TokenEditor.RLLMTreeSteps

/-! The tree over whole runs. `rllm_init` starts from an empty forest and every call keeps it,
so every reachable environment holds one; on the nodes its roots reach, that gives the shape
the environment promises, and `rllm_get_root` finds the node's root in `depth` rounds. -/
namespace TokenEditor

theorem rllmForest_empty (n D : Nat) : RllmForest (fun _ => none) [] n D where
  closed h := by cases h
  nodup h := by cases h
  unique h := by cases h
  parent h := by cases h
  depth h := by cases h
  capacity h := by cases h
  depth_lt h := by cases h
  room h := by cases h
  parent_lt h := by cases h
  root h := by cases h
  roots_nodup := List.nodup_nil
  fresh _ := rfl

theorem rllmInit_forest {config : RllmEnvConfig} {heap : List Bool} {env : RllmEnv}
    (h : rllmInit config heap = some env) : env.Forest := by
  simp only [rllmInit, rllmMalloc] at h
  split_ifs at h
  cases h
  exact rllmForest_empty _ _

variable (M : LlamaModel)

/-- Every call of the machine keeps the forest. -/
theorem RllmEnv.Forest.step {env env' : RllmEnv} (h : env.Forest) {c : RllmCall}
    (hs : rllmStep M env c = some env') : env'.Forest := by
  cases c with
  | createRoot config newCtx => cases hs; exact h.createRoot config newCtx
  | spawnChild parent config newCtx =>
    obtain ⟨⟨_, _⟩, hr, rfl⟩ := Option.map_eq_some'.mp hs
    exact h.spawnChild M hr
  | fork source newCtx =>
    obtain ⟨⟨_, _⟩, hr, rfl⟩ := Option.map_eq_some'.mp hs
    exact h.fork M hr
  | createPeer peer config newCtx =>
    obtain ⟨⟨_, _⟩, hr, rfl⟩ := Option.map_eq_some'.mp hs
    exact h.createPeer hr
  | destroy a =>
    obtain ⟨⟨_, _⟩, hr, rfl⟩ := Option.map_eq_some'.mp hs
    exact h.destroy hr

theorem RllmReachable.forest {config : RllmEnvConfig} {env : RllmEnv}
    (hr : RllmReachable M config env) : env.Forest := by
  induction hr with
  | init h => exact rllmInit_forest h
  | step _ _ hs ih => exact ih.step M hs

section Reaches
variable {env : RllmEnv} (h : env.Forest)
include h

theorem RllmEnv.Forest.reaches_alloc {c : Addr} (hc : env.Reaches c) :
    ∃ nc, env.heap c = some nc := by
  cases hc with
  | root hr =>
    obtain ⟨_, hl, -⟩ := h.root hr
    obtain ⟨nc, hnc, -⟩ := rllmLinks_alloc hl
    exact ⟨nc, hnc⟩
  | child _ hp hc =>
    obtain ⟨_, hl⟩ := h.closed (rllmLinks_eq_some hp) hc
    obtain ⟨nc, hnc, -⟩ := rllmLinks_alloc hl
    exact ⟨nc, hnc⟩

/-- A reached node is a root at depth 0 without a parent, or a child of a reached node that its
parent pointer names, one level below it and below the limit. -/
theorem RllmEnv.Forest.reaches_cases {c : Addr} {nc : RllmContext} (hc : env.Reaches c)
    (hnc : env.heap c = some nc) : (c ∈ env.roots ∧ nc.parent = none ∧ nc.depth = 0) ∨
      ∃ p np, env.Reaches p ∧ env.heap p = some np ∧ c ∈ np.children ∧ nc.parent = some p ∧
        nc.depth.toNat = np.depth.toNat + 1 ∧ nc.depth.toNat < env.config.maxDepth.toNat := by
  have hl := rllmLinks_eq_some hnc
  cases hc with
  | root hr =>
    obtain ⟨lr, hlr, hp, hd⟩ := h.root hr
    cases hl.symm.trans hlr
    exact .inl ⟨hr, hp, hd⟩
  | child hp hnp hcm =>
    have hpl := rllmLinks_eq_some hnp
    exact .inr ⟨_, _, hp, hnp, hcm, h.parent hpl hcm hl, h.depth hpl hcm hl⟩

/-- `rllm_get_root` from a reached node at depth `d` finds, in `d` rounds, a root whose subtree
holds the node. -/
theorem RllmEnv.Forest.getRoot (d : Nat) : ∀ {c : Addr} {nc : RllmContext}, env.Reaches c →
    env.heap c = some nc → nc.depth.toNat = d →
    ∃ r, rllmGetRoot d env.heap c = some r ∧ r ∈ env.roots ∧ RllmDesc (rllmLinks env.heap) r c := by
  induction d with
  | zero =>
    intro c nc hc hnc hd
    rcases h.reaches_cases hc hnc with ⟨hr, hp, -⟩ | ⟨_, _, _, _, _, _, hdp, _⟩
    · exact ⟨c, by simp only [rllmGetRoot, hnc, hp, Option.isNone_none, Option.bind_eq_bind,
        Option.some_bind, if_true], hr, .refl⟩
    · omega
  | succ d ih =>
    intro c nc hc hnc hd
    rcases h.reaches_cases hc hnc with ⟨-, -, hd0⟩ | ⟨p, np, hpr, hnp, hcm, hp, hdp, -⟩
    · rw [hd0] at hd; cases hd
    · obtain ⟨r, hg, hr, hdesc⟩ := ih hpr hnp (by omega)
      exact ⟨r, by simp only [rllmGetRoot, hnc, hp, hg, Option.bind_eq_bind, Option.some_bind], hr,
        .child hdesc (rllmLinks_eq_some hnp) hcm⟩

end Reaches

/-- What the environment promises of a node `c`, with record `nc`, that its roots reach: it
occurs once in the children of the node its parent pointer names and in no other; its
children fit their array; it has no parent exactly when it is a root, and roots are at depth 0;
otherwise it is one level below its parent and below `max_depth`; and `rllm_get_root` walks
its parent chain up to a root holding it in `depth` rounds. -/
structure RllmNodeOk (env : RllmEnv) (c : Addr) (nc : RllmContext) : Prop where
  child_iff : ∀ {p np}, env.heap p = some np → (np.children.count c = 1 ↔ nc.parent = some p)
  capacity : nc.children.length ≤ nc.childrenCapacity
  root_iff : nc.parent = none ↔ c ∈ env.roots
  root_depth : c ∈ env.roots → nc.depth = 0
  depth : ∀ {p}, nc.parent = some p → ∃ np, env.heap p = some np ∧
    nc.depth.toNat = np.depth.toNat + 1 ∧ nc.depth.toNat < env.config.maxDepth.toNat
  getRoot : ∃ r, rllmGetRoot nc.depth.toNat env.heap c = some r ∧ r ∈ env.roots ∧
    RllmDesc (rllmLinks env.heap) r c

theorem rllmReachable_tree_wellFormed {config : RllmEnvConfig} {env : RllmEnv}
    (hr : RllmReachable M config env) {c : Addr} (hc : env.Reaches c) :
    ∃ nc, env.heap c = some nc ∧ RllmNodeOk env c nc := by
  have h := hr.forest M
  obtain ⟨nc, hnc⟩ := h.reaches_alloc hc
  have hl := rllmLinks_eq_some hnc
  have hcases := h.reaches_cases hc hnc
  refine ⟨nc, hnc, fun {p np} hnp => ⟨fun h1 => ?_, fun hp => ?_⟩, (h.capacity hl).1,
    ⟨fun hp => ?_, fun hr' => ?_⟩, fun hr' => ?_, fun {p} hp => ?_, h.getRoot _ hc hnc rfl⟩
  · exact h.parent (rllmLinks_eq_some hnp) (List.count_pos_iff.mp (lt_of_lt_of_eq Nat.one_pos h1.symm)) hl
  · rcases hcases with ⟨-, hp0, -⟩ | ⟨q, nq, _, hnq, hcm, hq, -⟩
    · rw [hp0] at hp; cases hp
    · rw [hq] at hp; cases hp
      cases hnp.symm.trans hnq
      exact List.count_eq_one_of_mem (h.nodup (rllmLinks_eq_some hnp)) hcm
  · rcases hcases with ⟨hr', -⟩ | ⟨_, _, _, _, _, hq, -⟩
    · exact hr'
    · rw [hq] at hp; cases hp
  · obtain ⟨lr, hlr, hp, -⟩ := h.root hr'
    cases hl.symm.trans hlr
    exact hp
  · obtain ⟨lr, hlr, -, hd⟩ := h.root hr'
    cases hl.symm.trans hlr
    exact hd
  · rcases hcases with ⟨-, hp0, -⟩ | ⟨q, nq, _, hnq, _, hq, hd⟩
    · rw [hp0] at hp; cases hp
    · rw [hq] at hp; cases hp
      exact ⟨nq, hnq, hd⟩

/-- A root, a child spawned under it and a peer of the root: the child is well placed under
the root, one level below it, and its root is found by walking up. -/
theorem rllmReachable_tree_wellFormed_child :
    ∃ env, RllmReachable default ⟨8, 64⟩ env ∧ env.Reaches 1 ∧
      ∃ nc, env.heap 1 = some nc ∧ RllmNodeOk env 1 nc ∧ nc.parent = some 0 := by
  obtain ⟨env0, env1, env2, env3, h0, h1, h2, h3, r3, -, -, hreach⟩ := rllmReachable_family
  have hc : env3.Reaches 1 := (hreach 1).mpr (.inr rfl)
  obtain ⟨nc, hnc, hok⟩ := rllmReachable_tree_wellFormed default r3 hc
  have hp : nc.parent = some 0 := by
    cases h0; cases h1; cases h2; cases h3; cases hnc; rfl
  exact ⟨env3, r3, hc, nc, hnc, hok, hp⟩

end TokenEditor
