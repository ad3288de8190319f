import TokenEditor.RLLMTree

/-! Every call of the environment keeps its tree a forest: a creation allocates a fresh node,
may drop it again, and links it under a parent or lists it as a root only at the end;
`rllm_destroy` unlinks its node and frees the subtree below it. -/
namespace TokenEditor

/-- The environment's tree is a forest under its own depth limit. -/
def RllmEnv.Forest (env : RllmEnv) : Prop :=
  RllmForest (rllmLinks env.heap) env.roots env.nextAddr env.config.maxDepth.toNat

/-- Nothing in the environment's tree refers to `a`. -/
def RllmEnv.NoRef (env : RllmEnv) (a : Addr) : Prop :=
  RllmNoRef (rllmLinks env.heap) env.roots a

theorem RllmEnv.Forest.congr {env env' : RllmEnv} (h : env.Forest)
    (hl : rllmLinks env'.heap = rllmLinks env.heap) (hr : env'.roots = env.roots)
    (hn : env'.nextAddr = env.nextAddr) (hc : env'.config = env.config) : env'.Forest := by
  unfold RllmEnv.Forest; rw [hl, hr, hn, hc]; exact h

/-- A change of one node's fields shows in the tree as the matching change of its link. -/
theorem rllmLinks_modify (env : RllmEnv) (a : Addr) {f : RllmContext → RllmContext}
    {g : RllmLink → RllmLink} (hfg : ∀ c, (f c).link = g c.link) :
    rllmLinks (env.modify a f).heap = Function.update (rllmLinks env.heap) a ((rllmLinks env.heap a).map g) := by
  funext x
  by_cases hx : x = a
  · subst hx; cases h : env.heap x <;> simp [RllmEnv.modify, rllmLinks, h, hfg]
  · simp [RllmEnv.modify, rllmLinks, Function.update_noteq hx]

theorem rllmLinks_modify_of_link (env : RllmEnv) (a : Addr) {f : RllmContext → RllmContext}
    (hf : ∀ c, (f c).link = c.link) : rllmLinks (env.modify a f).heap = rllmLinks env.heap := by
  rw [rllmLinks_modify env a (g := id) hf]; simp

@[simp] theorem RllmEnv.fire_heap (env : RllmEnv) (s : Bool) (e : RllmEvent) :
    (env.fire s e).heap = env.heap := by unfold RllmEnv.fire; split <;> rfl
@[simp] theorem RllmEnv.fire_roots (env : RllmEnv) (s : Bool) (e : RllmEvent) :
    (env.fire s e).roots = env.roots := by unfold RllmEnv.fire; split <;> rfl
@[simp] theorem RllmEnv.fire_nextAddr (env : RllmEnv) (s : Bool) (e : RllmEvent) :
    (env.fire s e).nextAddr = env.nextAddr := by unfold RllmEnv.fire; split <;> rfl
@[simp] theorem RllmEnv.fire_config (env : RllmEnv) (s : Bool) (e : RllmEvent) :
    (env.fire s e).config = env.config := by unfold RllmEnv.fire; split <;> rfl

theorem toNat_add_one_of_lt {x : BitVec 32} (h : x.toNat + 1 < 2^32) :
    (x + 1).toNat = x.toNat + 1 := by
  rw [BitVec.toNat_add, show (1 : BitVec 32).toNat = 1 from rfl, Nat.mod_eq_of_lt h]

/-- The link of the node `rllm_alloc_context` makes. -/
def rllmFreshLink : RllmLink := ⟨none, [], 8, 0⟩

/-- `rllm_alloc_context` either allocates nothing, leaving the heap as it was and `nextAddr` no
lower, or puts a fresh node at `nextAddr`; it changes neither the roots nor the limits. -/
theorem rllmAllocContext_heap (env : RllmEnv) :
    (rllmAllocContext env).2.roots = env.roots ∧ (rllmAllocContext env).2.config = env.config ∧
      (((rllmAllocContext env).1 = none ∧ (rllmAllocContext env).2.heap = env.heap ∧
        env.nextAddr ≤ (rllmAllocContext env).2.nextAddr) ∨
      ((rllmAllocContext env).1 = some env.nextAddr ∧
        (rllmAllocContext env).2.nextAddr = env.nextAddr + 1 ∧
        (rllmAllocContext env).2.heap = Function.update env.heap env.nextAddr (some
          { (default : RllmContext) with id := env.nextCtxId, state := .idle, childrenCapacity := 8
                                         queueCapacity := 32
                                         messageQueue := List.replicate 32 default }))) := by
  unfold rllmAllocContext
  by_cases h1 : env.config.maxContexts.toNat ≤ env.contexts.length
  · rw [if_pos h1]; exact ⟨rfl, rfl, .inl ⟨rfl, rfl, le_rfl⟩⟩
  rw [if_neg h1]
  dsimp only [rllmMalloc]
  by_cases h2 : env.contextCapacity ≤ env.contexts.length
  · rw [if_pos h2]
    cases env.mallocFails.headD false <;> cases env.mallocFails.tail.headD false <;>
      cases env.mallocFails.tail.tail.headD false <;> cases env.mallocFails.tail.tail.tail.headD false <;>
      first
      | exact ⟨rfl, rfl, .inl ⟨rfl, rfl, Nat.le_succ _⟩⟩
      | exact ⟨rfl, rfl, .inl ⟨rfl, rfl, le_rfl⟩⟩
      | exact ⟨rfl, rfl, .inr ⟨rfl, rfl, rfl⟩⟩
  · rw [if_neg h2]
    cases env.mallocFails.headD false <;> cases env.mallocFails.tail.headD false <;>
      cases env.mallocFails.tail.tail.headD false <;>
      first
      | exact ⟨rfl, rfl, .inl ⟨rfl, rfl, Nat.le_succ _⟩⟩
      | exact ⟨rfl, rfl, .inl ⟨rfl, rfl, le_rfl⟩⟩
      | exact ⟨rfl, rfl, .inr ⟨rfl, rfl, rfl⟩⟩

/-- `rllm_alloc_context` touches the tree only by allocating a fresh node at `nextAddr`. -/
theorem rllmAllocContext_tree (env : RllmEnv) :
    (rllmAllocContext env).2.roots = env.roots ∧ (rllmAllocContext env).2.config = env.config ∧
      (((rllmAllocContext env).1 = none ∧ (rllmAllocContext env).2.heap = env.heap ∧
        env.nextAddr ≤ (rllmAllocContext env).2.nextAddr) ∨
      ((rllmAllocContext env).1 = some env.nextAddr ∧
        (rllmAllocContext env).2.nextAddr = env.nextAddr + 1 ∧
        rllmLinks (rllmAllocContext env).2.heap =
          Function.update (rllmLinks env.heap) env.nextAddr (some rllmFreshLink))) := by
  obtain ⟨hr, hc, h | ⟨h1, hn, hh⟩⟩ := rllmAllocContext_heap env
  · exact ⟨hr, hc, .inl h⟩
  · exact ⟨hr, hc, .inr ⟨h1, hn, by rw [hh, rllmLinks_update]; rfl⟩⟩

theorem rllmAllocContext_heap_of_lt (env : RllmEnv) {x : Addr} (hx : x < env.nextAddr) :
    (rllmAllocContext env).2.heap x = env.heap x := by
  obtain ⟨-, -, ⟨-, hh, -⟩ | ⟨-, -, hh⟩⟩ := rllmAllocContext_heap env
  · rw [hh]
  · rw [hh, Function.update_noteq hx.ne]

theorem RllmEnv.modify_heap_of_ne (env : RllmEnv) {a x : Addr} (f : RllmContext → RllmContext)
    (hx : x ≠ a) : (env.modify a f).heap x = env.heap x :=
  Function.update_noteq hx _ _

@[simp] theorem RllmEnv.modify_config (env : RllmEnv) (a : Addr) (f : RllmContext → RllmContext) :
    (env.modify a f).config = env.config := rfl

/-- After `rllm_alloc_context` the tree is still a forest, and the new node, if any, is a
fresh childless root-less node nothing refers to. -/
theorem RllmEnv.Forest.alloc {env : RllmEnv} (h : env.Forest) :
    (rllmAllocContext env).2.Forest ∧ ∀ a, (rllmAllocContext env).1 = some a →
      a = env.nextAddr ∧ (rllmAllocContext env).2.NoRef a ∧
      rllmLinks (rllmAllocContext env).2.heap a = some rllmFreshLink := by
  obtain ⟨hr, hc, ⟨h1, hh, hn⟩ | ⟨h1, hn, hl⟩⟩ := rllmAllocContext_tree env
  · refine ⟨?_, fun a ha => by rw [h1] at ha; cases ha⟩
    unfold RllmEnv.Forest; rw [hh, hr, hc]; exact RllmForest.mono h hn
  · have hu := RllmForest.update_noRef (RllmForest.mono h (Nat.le_succ _)) (RllmForest.noRef_fresh h)
      (l := rllmFreshLink) (Nat.lt_succ_self _) rfl (by decide) (by simp [rllmFreshLink])
      (by simp [rllmFreshLink]) (fun hp => by cases hp) (fun hp => by cases hp)
    refine ⟨?_, fun a ha => ?_⟩
    · unfold RllmEnv.Forest; rw [hl, hr, hn, hc]; exact hu.1
    · rw [h1] at ha; cases ha
      refine ⟨rfl, ?_, by rw [hl]; exact Function.update_same _ _ _⟩
      unfold RllmEnv.NoRef; rw [hl, hr]; exact hu.2

/-- Midway through a creation: the tree is a forest and the new node `a` is childless and
referred to by nothing. -/
structure RllmEnv.Creating (env : RllmEnv) (a : Addr) : Prop where
  forest : env.Forest
  noRef : env.NoRef a
  link : ∃ l, rllmLinks env.heap a = some l ∧ l.children = [] ∧ 0 < l.childrenCapacity

namespace RllmEnv.Creating
variable {env : RllmEnv} {a : Addr}

theorem congr {env' : RllmEnv} (h : env.Creating a) (hl : rllmLinks env'.heap = rllmLinks env.heap)
    (hr : env'.roots = env.roots) (hn : env'.nextAddr = env.nextAddr) (hc : env'.config = env.config) :
    env'.Creating a :=
  ⟨h.forest.congr hl hr hn hc, by unfold RllmEnv.NoRef; rw [hl, hr]; exact h.noRef,
    by rw [hl]; exact h.link⟩

theorem modify (h : env.Creating a) (b : Addr) {f : RllmContext → RllmContext}
    (hf : ∀ c, (f c).link = c.link) : (env.modify b f).Creating a :=
  h.congr (rllmLinks_modify_of_link env b hf) rfl rfl rfl

theorem lt (h : env.Creating a) : a < env.nextAddr := by
  obtain ⟨l, hl, -⟩ := h.link
  exact RllmForest.lt_of_some h.forest hl

/-- The cleanup of a failed creation leaves a forest. -/
theorem discard (h : env.Creating a) : (rllmDiscard env a).Forest := by
  unfold RllmEnv.Forest rllmDiscard
  simp only [rllmLinks_update, Option.map_none']
  exact RllmForest.erase_noRef h.forest h.noRef

/-- Setting the new node's link to another childless one that fits the forest. -/
theorem setLink (h : env.Creating a) {f : RllmContext → RllmContext} {g : RllmLink → RllmLink}
    (hfg : ∀ c, (f c).link = g c.link) {l : RllmLink} (hl : rllmLinks env.heap a = some l)
    (hc : (g l).children = []) (hk : 0 < (g l).childrenCapacity)
    (hd : (g l).depth.toNat < max env.config.maxDepth.toNat 1) (hne : (g l).parent ≠ some a)
    (hroom : ∀ {pp lpp}, (g l).parent = some pp → rllmLinks env.heap pp = some lpp →
      lpp.depth.toNat + 1 < env.config.maxDepth.toNat)
    (hlt : ∀ {pp}, (g l).parent = some pp → pp < env.nextAddr) :
    (env.modify a f).Creating a ∧ rllmLinks (env.modify a f).heap a = some (g l) := by
  have hu := RllmForest.update_noRef h.forest h.noRef h.lt hc hk hd hne hroom hlt
  have hm := rllmLinks_modify env a hfg
  rw [hl, Option.map_some'] at hm
  have ha : rllmLinks (env.modify a f).heap a = some (g l) := by
    rw [hm]; exact Function.update_same _ _ _
  exact ⟨⟨by unfold RllmEnv.Forest; rw [hm]; exact hu.1, by unfold RllmEnv.NoRef; rw [hm]; exact hu.2,
    ⟨g l, ha, hc, hk⟩⟩, ha⟩

/-- Listing the new node as a root, when it is parentless at depth 0. -/
theorem addRoot (h : env.Creating a) {l : RllmLink} (hl : rllmLinks env.heap a = some l)
    (hp : l.parent = none) (hd : l.depth = 0) : { env with roots := env.roots ++ [a] }.Forest :=
  RllmForest.addRoot h.forest h.noRef hl hp hd

/-- The success branch of `rllm_add_child`: the parent's record `q` has the new node appended
and room for it, and the new node names the parent one level below it. -/
theorem linkUnder (h : env.Creating a) (cap : Nat) {pa : Addr} {p q : RllmContext}
    (hpa : env.heap pa = some p) (hne : pa ≠ a) (hD : p.depth.toNat + 1 < env.config.maxDepth.toNat)
    (hq : q.link = p.link.addChild a cap) (hcap : p.children.length + 1 ≤ cap) :
    ({ env with heap := Function.update env.heap pa (some q) }.modify a
      fun c => { c with parent := some pa, depth := p.depth + 1 }).Forest := by
  obtain ⟨l, hl, hlc, hlk⟩ := h.link
  have hp : rllmLinks env.heap pa = some p.link := rllmLinks_eq_some hpa
  have hdep : (p.depth + 1).toNat = p.depth.toNat + 1 :=
    toNat_add_one_of_lt (by have := env.config.maxDepth.isLt; omega)
  have h1 := RllmForest.update_noRef h.forest h.noRef h.lt
    (l := ⟨some pa, l.children, l.childrenCapacity, p.depth + 1⟩) hlc hlk
    (by show (p.depth + 1).toNat < _; omega) (by simpa using hne)
    (fun hpp hlpp => by cases hpp; cases hp.symm.trans hlpp; exact hD)
    (fun hpp => by cases hpp; exact RllmForest.lt_of_some h.forest hp)
  have h2 := RllmForest.linkChild h1.1 h1.2
    (by rw [Function.update_noteq hne]; exact hp) (Function.update_same _ _ _) rfl hdep
    (by rw [hdep]; exact hD) hcap
  have hlinks : rllmLinks ({ env with heap := Function.update env.heap pa (some q) }.modify a
      fun c => { c with parent := some pa, depth := p.depth + 1 }).heap =
      Function.update (Function.update (rllmLinks env.heap) a
        (some ⟨some pa, l.children, l.childrenCapacity, p.depth + 1⟩)) pa (some (p.link.addChild a cap)) := by
    rw [rllmLinks_modify _ a (f := fun c => { c with parent := some pa, depth := p.depth + 1 })
      (g := fun l => { l with parent := some pa, depth := p.depth + 1 }) fun _ => rfl]
    simp only [rllmLinks_update, Option.map_some', hq, Function.update_noteq hne.symm, hl]
    exact Function.update_comm hne _ _ _
  unfold RllmEnv.Forest; rw [hlinks]; exact h2

/-- `rllm_add_child` of the new node under an allocated `pa` with room below the limit. -/
theorem addChild (h : env.Creating a) {pa : Addr} {p : RllmContext} (hpa : env.heap pa = some p)
    (hne : pa ≠ a) (hD : p.depth.toNat + 1 < env.config.maxDepth.toNat) {env' : RllmEnv}
    (hres : rllmAddChild env pa a = some env') : env'.Forest := by
  obtain ⟨l, hl, -⟩ := h.link
  obtain ⟨c, hca, -⟩ : ∃ c, env.heap a = some c ∧ c.link = l := by
    simpa only [rllmLinks, Option.map_eq_some'] using hl
  have hk : p.children.length ≤ p.childrenCapacity := (h.forest.capacity (rllmLinks_eq_some hpa)).1
  have hk0 : 0 < p.childrenCapacity := (h.forest.capacity (rllmLinks_eq_some hpa)).2
  have hM : (rllmMalloc env).2.Creating a := h.congr rfl rfl rfl rfl
  unfold rllmAddChild at hres
  simp only [hpa, hca, Option.bind_eq_bind, Option.some_bind] at hres
  by_cases hfull : p.childrenCapacity ≤ p.children.length
  · cases hb : env.mallocFails.headD false <;>
      simp only [hfull, rllmMalloc, hb, if_true, Bool.not_false, Bool.not_true, Bool.false_eq_true,
        if_false, Option.some.injEq] at hres <;> subst hres
    · exact hM.linkUnder (p.childrenCapacity * 2) hpa hne hD rfl (by omega)
    · exact hM.forest
  · simp only [hfull, if_false, Bool.not_true, Bool.false_eq_true, Option.some.injEq] at hres
    subst hres
    exact h.linkUnder p.childrenCapacity hpa hne hD rfl (by omega)

end RllmEnv.Creating

theorem RllmEnv.Forest.fire {env : RllmEnv} (h : env.Forest) (s : Bool) (e : RllmEvent) :
    (env.fire s e).Forest :=
  h.congr (by rw [RllmEnv.fire_heap]) (RllmEnv.fire_roots _ _ _) (RllmEnv.fire_nextAddr _ _ _)
    (RllmEnv.fire_config _ _ _)

theorem rllmNewEditor_tree {env env' : RllmEnv} {l : LlamaContext} {ed : Option TeContext}
    (heq : rllmNewEditor env l = (ed, env')) : env'.heap = env.heap ∧ env'.roots = env.roots ∧
      env'.nextAddr = env.nextAddr ∧ env'.config = env.config := by
  have := congrArg Prod.snd heq
  subst this
  exact ⟨rfl, rfl, rfl, rfl⟩

/-- `rllm_create_root` keeps the forest, whatever it returns. -/
theorem RllmEnv.Forest.createRoot {env : RllmEnv} (h : env.Forest) (config : RllmCtxConfig)
    (newCtx : Option LlamaContext) : (rllmCreateRoot env config newCtx).2.Forest := by
  have hA := h.alloc
  unfold rllmCreateRoot
  split
  · next env1 heq => rw [heq] at hA; exact hA.1
  · next a env1 heq =>
    rw [heq] at hA
    obtain ⟨-, hno, hl⟩ := hA.2 a rfl
    obtain ⟨hc2, hl2⟩ := RllmEnv.Creating.setLink ⟨hA.1, hno, _, hl, rfl, by decide⟩
      (f := fun c => { c with relation := .root, config := config, depth := 0 })
      (g := fun l => { l with depth := 0 }) (fun _ => rfl) hl rfl (by decide) (by simp)
      (by simp [rllmFreshLink]) (fun hp => by cases hp) (fun hp => by cases hp)
    dsimp only
    split
    · exact hc2.discard
    · split
      · next heq' =>
        obtain ⟨hh, hr, hn, hc⟩ := rllmNewEditor_tree heq'
        exact (hc2.congr (by rw [hh]) hr hn hc).discard
      · next ed env3 heq' =>
        obtain ⟨hh, hr, hn, hc⟩ := rllmNewEditor_tree heq'
        have hc3 := (hc2.congr (by rw [hh]) hr hn hc).modify a
          (f := fun c => { c with tokenEditor := some ed }) fun _ => rfl
        refine RllmEnv.Forest.fire ?_ _ _
        split
        · refine hc3.addRoot (l := { rllmFreshLink with depth := 0 }) ?_ rfl rfl
          rw [rllmLinks_modify_of_link _ _ (f := fun c => { c with tokenEditor := some ed })
            fun _ => rfl, hh]
          exact hl2
        · exact hc3.forest

section
variable (M : LlamaModel)

/-- The inheritance step touches only the allocator and the new editor. -/
theorem rllmInherit_env {env env' : RllmEnv} {p : RllmContext} {mode : RllmShareMode}
    {ed ed' : TeContext} (h : rllmInherit M env p mode ed = some (ed', env')) :
    ∃ l, env' = { env with mallocFails := l } := by
  unfold rllmInherit at h
  rw [Option.bind_eq_bind] at h
  obtain ⟨pte, -, h⟩ := Option.bind_eq_some.mp h
  split at h
  next ed1 env1 heq =>
  obtain ⟨l1, rfl⟩ : ∃ l, env1 = { env with mallocFails := l } := by
    split at heq <;> cases heq <;> exact ⟨_, rfl⟩
  split at h
  · simp only [rllmMalloc] at h
    split at h
    · cases h; exact ⟨_, rfl⟩
    · simp only [Option.bind_eq_bind] at h
      obtain ⟨_, -, h⟩ := Option.bind_eq_some.mp h
      obtain ⟨_, -, h⟩ := Option.bind_eq_some.mp h
      cases h; exact ⟨_, rfl⟩
  · cases h; exact ⟨_, rfl⟩

theorem rllmInherit_tree {env env' : RllmEnv} {p : RllmContext} {mode : RllmShareMode}
    {ed ed' : TeContext} (h : rllmInherit M env p mode ed = some (ed', env')) :
    env'.heap = env.heap ∧ env'.roots = env.roots ∧ env'.nextAddr = env.nextAddr ∧
      env'.config = env.config := by
  obtain ⟨l, rfl⟩ := rllmInherit_env M h
  exact ⟨rfl, rfl, rfl, rfl⟩

/-- `rllm_spawn_child` keeps the forest, whatever it returns. -/
theorem RllmEnv.Forest.spawnChild {env env' : RllmEnv} (h : env.Forest) {parent : Option Addr}
    {config : RllmCtxConfig} {newCtx : Option LlamaContext} {r : Option Addr}
    (hres : rllmSpawnChild M env parent config newCtx = some (r, env')) : env'.Forest := by
  unfold rllmSpawnChild at hres
  rcases parent with _ | pa
  · cases hres; exact h
  simp only [Option.bind_eq_bind] at hres
  obtain ⟨p, hp, hres⟩ := Option.bind_eq_some.mp hres
  split_ifs at hres with hdep
  · cases hres; exact h
  have hpa : pa < env.nextAddr := RllmForest.lt_of_some h (rllmLinks_eq_some hp)
  have hD : p.depth.toNat + 1 < env.config.maxDepth.toNat := by
    have hlt : p.depth.toNat < max env.config.maxDepth.toNat 1 := h.depth_lt (rllmLinks_eq_some hp)
    rw [toNat_add_one_of_lt (by have := env.config.maxDepth.isLt; omega)] at hdep
    omega
  have hA := h.alloc
  obtain ⟨-, hcfg, -⟩ := rllmAllocContext_tree env
  have hpa1 := rllmAllocContext_heap_of_lt env hpa
  split at hres
  · next heq => rw [heq] at hA; cases hres; exact hA.1
  next a env1 heq =>
  rw [heq] at hA hcfg hpa1
  obtain ⟨ha, hno, hl⟩ := hA.2 a rfl
  have hne : pa ≠ a := ha ▸ hpa.ne
  have hc1 := RllmEnv.Creating.modify ⟨hA.1, hno, _, hl, rfl, by decide⟩ a
    (f := fun c => { c with relation := .child, config := config }) fun _ => rfl
  split at hres
  · cases hres; exact hc1.discard
  split at hres
  · next heq' =>
    cases hres
    obtain ⟨hh, hr, hn, hc⟩ := rllmNewEditor_tree heq'
    exact (hc1.congr (by rw [hh]) hr hn hc).discard
  next ed env3 heq' =>
  obtain ⟨hh, hr, hn, hc⟩ := rllmNewEditor_tree heq'
  obtain ⟨⟨ed4, env4⟩, hinh, hres⟩ := Option.bind_eq_some.mp hres
  obtain ⟨hh4, hr4, hn4, hc4⟩ := rllmInherit_tree M hinh
  have hc5 := (hc1.congr (by rw [hh4, hh]) (hr4.trans hr) (hn4.trans hn) (hc4.trans hc)).modify a
    (f := fun c => { c with tokenEditor := some ed4 }) fun _ => rfl
  obtain ⟨env5, hadd, hres⟩ := Option.bind_eq_some.mp hres
  obtain ⟨c, -, hres⟩ := Option.bind_eq_some.mp hres
  cases hres
  have hf : env5.Forest := hc5.addChild (p := p)
    (by rw [RllmEnv.modify_heap_of_ne _ _ hne, hh4, hh, RllmEnv.modify_heap_of_ne _ _ hne, hpa1, hp])
    hne (by rw [RllmEnv.modify_config, hc4, hc]; exact hcfg ▸ hD) hadd
  refine (RllmEnv.Forest.fire ?_ _ _).fire _ _
  exact hf.congr rfl rfl rfl rfl

/-- `rllm_fork` keeps the forest, whatever it returns. -/
theorem RllmEnv.Forest.fork {env env' : RllmEnv} (h : env.Forest) {source : Addr}
    {newCtx : Option LlamaContext} {r : Option Addr}
    (hres : rllmFork M env source newCtx = some (r, env')) : env'.Forest := by
  unfold rllmFork at hres
  simp only [Option.bind_eq_bind] at hres
  obtain ⟨s, -, hres⟩ := Option.bind_eq_some.mp hres
  obtain ⟨⟨r1, env1⟩, hsp, hres⟩ := Option.bind_eq_some.mp hres
  have h1 := h.spawnChild M hsp
  rcases r1 with _ | a <;> cases hres
  · exact h1
  · exact h1.congr (rllmLinks_modify_of_link _ _ (f := fun c => { c with relation := .fork })
      fun _ => rfl) rfl rfl rfl

end

/-- `rllm_create_peer` keeps the forest, whatever it returns. -/
theorem RllmEnv.Forest.createPeer {env env' : RllmEnv} (h : env.Forest) {peer : Addr}
    {config : RllmCtxConfig} {newCtx : Option LlamaContext} {r : Option Addr}
    (hres : rllmCreatePeer env peer config newCtx = some (r, env')) : env'.Forest := by
  unfold rllmCreatePeer at hres
  simp only [Option.bind_eq_bind] at hres
  obtain ⟨p, hp, hres⟩ := Option.bind_eq_some.mp hres
  have hpl : rllmLinks env.heap peer = some p.link := rllmLinks_eq_some hp
  have hA := h.alloc
  obtain ⟨-, hcfg, -⟩ := rllmAllocContext_tree env
  have hold : ∀ {x}, x < env.nextAddr → rllmLinks (rllmAllocContext env).2.heap x =
      rllmLinks env.heap x := fun hx => by simp only [rllmLinks, rllmAllocContext_heap_of_lt env hx]
  have hpp : ∀ {pp}, p.parent = some pp → pp < env.nextAddr := h.parent_lt hpl
  have hdl : p.depth.toNat < max env.config.maxDepth.toNat 1 := h.depth_lt hpl
  split at hres
  · next heq => rw [heq] at hA; cases hres; exact hA.1
  next a env1 heq =>
  rw [heq] at hA hcfg hold
  obtain ⟨ha, hno, hl⟩ := hA.2 a rfl
  obtain ⟨hc2, -⟩ := RllmEnv.Creating.setLink ⟨hA.1, hno, _, hl, rfl, by decide⟩
    (f := fun c => { c with relation := .peer, config := config, depth := p.depth, parent := p.parent })
    (g := fun l => { l with depth := p.depth, parent := p.parent }) (fun _ => rfl) hl rfl
    (Nat.succ_pos 7) (by rw [hcfg]; exact hdl) (fun he => (hpp he).ne ha)
    (fun he hlpp => by rw [hcfg]; exact h.room hpl he ((hold (hpp he)).symm.trans hlpp))
    (fun he => Nat.lt_of_lt_of_le (hpp he) (ha ▸ (RllmForest.lt_of_some hA.1 hl).le))
  split at hres
  · cases hres; exact hc2.discard
  split at hres
  · next heq' =>
    cases hres
    obtain ⟨hh, hr, hn, hc⟩ := rllmNewEditor_tree heq'
    exact (hc2.congr (by rw [hh]) hr hn hc).discard
  next ed env3 heq' =>
  obtain ⟨hh, hr, hn, hc⟩ := rllmNewEditor_tree heq'
  have hc4 := (hc2.congr (by rw [hh]) hr hn hc).modify a
    (f := fun c => { c with tokenEditor := some ed }) fun _ => rfl
  obtain ⟨env5, hm, hres⟩ := Option.bind_eq_some.mp hres
  cases hres
  refine RllmEnv.Forest.fire ?_ _ _
  split at hm
  · next pp hpar =>
    have hne : pp ≠ a := (hpp hpar).ne.trans_eq ha.symm
    have hq1 : env1.heap pp = env.heap pp := by
      have := rllmAllocContext_heap_of_lt env (hpp hpar)
      rw [heq] at this; exact this
    obtain ⟨q, hq⟩ : ∃ q, env.heap pp = some q := by
      cases hq : env.heap pp
      · simp only [rllmAddChild, RllmEnv.modify_heap_of_ne _ _ hne, hh, hq1, hq,
          Option.bind_eq_bind, Option.none_bind, reduceCtorEq] at hm
      · exact ⟨_, rfl⟩
    refine hc4.addChild (p := q) ?_ hne ?_ hm
    · rw [RllmEnv.modify_heap_of_ne _ _ hne, hh, RllmEnv.modify_heap_of_ne _ _ hne, hq1, hq]
    · rw [RllmEnv.modify_config, hc, RllmEnv.modify_config, hcfg]
      exact h.room hpl hpar (rllmLinks_eq_some hq)
  · cases hm; exact hc4.forest

/-- Midway through `rllm_destroy`: the tree is a forest, and `a` is allocated and in no
children list. -/
structure RllmEnv.Detached (env : RllmEnv) (a : Addr) : Prop where
  forest : env.Forest
  not_child : ∀ {p lp}, rllmLinks env.heap p = some lp → a ∉ lp.children
  alloc : ∃ l, rllmLinks env.heap a = some l

/-- A node whose parent pointer does not name `p` is not among `p`'s children. -/
theorem RllmEnv.Forest.not_child_of_parent {env : RllmEnv} (h : env.Forest) {a : Addr}
    {node : RllmContext} (ha : env.heap a = some node) {p : Addr} {lp : RllmLink}
    (hp : rllmLinks env.heap p = some lp) (hne : node.parent ≠ some p) : a ∉ lp.children :=
  fun hc => hne (h.parent hp hc (rllmLinks_eq_some ha))

theorem RllmEnv.Forest.detached_of_parentless {env : RllmEnv} (h : env.Forest) {a : Addr}
    {node : RllmContext} (ha : env.heap a = some node) (hp : node.parent = none) : env.Detached a :=
  ⟨h, fun hq => h.not_child_of_parent ha hq (by rw [hp]; exact Option.some_ne_none _ |>.symm),
    _, rllmLinks_eq_some ha⟩

/-- `rllm_remove_child` of a node from the parent its pointer names detaches it. -/
theorem RllmEnv.Forest.removeChild {env env' : RllmEnv} (h : env.Forest) {a p : Addr}
    {node : RllmContext} (ha : env.heap a = some node) (hp : node.parent = some p)
    (hres : rllmRemoveChild env p a = some env') : env'.Detached a ∧ env'.roots = env.roots ∧
      env'.nextAddr = env.nextAddr ∧ env'.config = env.config := by
  unfold rllmRemoveChild at hres
  simp only [Option.bind_eq_bind] at hres
  obtain ⟨q, hq, hres⟩ := Option.bind_eq_some.mp hres
  have hql : rllmLinks env.heap p = some q.link := rllmLinks_eq_some hq
  split_ifs at hres with hin
  · obtain ⟨-, -, hres⟩ := Option.bind_eq_some.mp hres
    have he' := (Option.some.inj hres).symm
    have hap : a ≠ p := fun he => by
      have := (h.depth hql hin (he ▸ hql)).1
      omega
    have h1 := RllmForest.unlinkChild (a := a) h hql
    have hnc : ∀ {x lx}, Function.update (rllmLinks env.heap) p
        (some { q.link with children := q.link.children.erase a }) x = some lx → a ∉ lx.children :=
      fun {x lx} hx => by
        rcases eq_some_of_update hx with ⟨-, he⟩ | ⟨hxp, hx⟩
        · cases he; exact (h.nodup hql).not_mem_erase
        · exact fun hc => hxp (h.unique hx hql hc hin)
    have hta : Function.update (rllmLinks env.heap) p
        (some { q.link with children := q.link.children.erase a }) a = some node.link := by
      rw [Function.update_noteq hap]; exact rllmLinks_eq_some ha
    have hlinks : rllmLinks env'.heap = Function.update (Function.update (rllmLinks env.heap) p
        (some { q.link with children := q.link.children.erase a })) a
          (some { node.link with parent := none }) := by
      rw [he', rllmLinks_modify _ a (f := fun c => { c with parent := none })
        (g := fun l => { l with parent := none }) fun _ => rfl]
      simp only [rllmLinks_update, Option.map_some', Function.update_noteq hap, rllmLinks_eq_some ha]
      rfl
    refine ⟨⟨by unfold RllmEnv.Forest; rw [hlinks, he']; exact RllmForest.clearParent h1 hta hnc,
      fun {x lx} hx => ?_, _, by rw [hlinks]; exact Function.update_same _ _ _⟩,
      by rw [he']; rfl, by rw [he']; rfl, by rw [he']; rfl⟩
    rw [hlinks] at hx
    rcases eq_some_of_update hx with ⟨-, he⟩ | ⟨-, hx⟩
    · cases he; have := hnc hta; exact this
    · exact hnc hx
  · cases hres
    refine ⟨⟨h, fun {x lx} hx hc => ?_, _, rllmLinks_eq_some ha⟩, rfl, rfl, rfl⟩
    have hpx : node.parent = some x := h.parent hx hc (rllmLinks_eq_some ha)
    rw [hp] at hpx
    cases hpx
    cases hql.symm.trans hx
    exact hin hc

/-- The end of `rllm_destroy`: out of the roots and the pool, its subtree freed. -/
theorem RllmEnv.Detached.free {env : RllmEnv} {a : Addr} (h : env.Detached a)
    {heap' : Addr → Option RllmContext}
    (hf : rllmFreeContextInternal (env.config.maxDepth.toNat + 1) env.heap a = some heap') :
    { env with roots := env.roots.erase a, contexts := env.contexts.erase a, heap := heap' }.Forest := by
  obtain ⟨l, hl⟩ := h.alloc
  obtain ⟨heap'', hf', hd, hk⟩ := rllmFreeContextInternal_spec _ (h.forest.subtreeOk hl)
  cases hf.symm.trans hf'
  exact RllmForest.freeSubtree (h.forest.eraseRoot a) h.not_child h.forest.roots_nodup.not_mem_erase
    (fun y hy => by simp only [rllmLinks, hd y hy, Option.map_none'])
    (fun y hy => by simp only [rllmLinks, hk y hy])

/-- `rllm_destroy` keeps the forest. -/
theorem RllmEnv.Forest.destroy {env env' : RllmEnv} (h : env.Forest) {a : Addr} {e : RllmError}
    (hres : rllmDestroy env a = some (e, env')) : env'.Forest := by
  unfold rllmDestroy at hres
  simp only [Option.bind_eq_bind] at hres
  obtain ⟨node, ha, hres⟩ := Option.bind_eq_some.mp hres
  obtain ⟨env2, hm, hres⟩ := Option.bind_eq_some.mp hres
  obtain ⟨heap', hf, hres⟩ := Option.bind_eq_some.mp hres
  cases hres
  have h1 := h.fire env.onContextDestroy (.contextDestroy a)
  have ha1 : (env.fire env.onContextDestroy (.contextDestroy a)).heap a = some node := by
    rw [RllmEnv.fire_heap]; exact ha
  have hd : env2.Detached a := by
    split at hm
    · next p hp => exact (h1.removeChild ha1 hp hm).1
    · next hp => cases hm; exact h1.detached_of_parentless ha1 hp
  exact hd.free hf

end TokenEditor
