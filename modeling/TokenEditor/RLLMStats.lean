import TokenEditor.RLLMWellFormed

/-! The peak-depth statistic over whole runs. `rllm_spawn_child` raises `peak_depth` to the new
child's depth; `rllm_create_peer` never touches it, but a peer sits at its reference's depth
or one below that reference's parent, both already counted. So on every reachable environment
the peak `rllm_get_stats` reports bounds the depth of every live node, and it stays below the
depth limit. -/
namespace TokenEditor

/-- The peak bounds the depth of every live node and is one above, at least, the depth of every
live node a parent pointer names; it is below the limit `D`. -/
structure RllmPeakOk (t : RllmLinks) (peak D : Nat) : Prop where
  depth : ∀ {x lx}, t x = some lx → lx.depth.toNat ≤ peak
  parent : ∀ {x lx pp lpp}, t x = some lx → lx.parent = some pp → t pp = some lpp →
    lpp.depth.toNat + 1 ≤ peak
  lt : peak < max D 1

/-- `t'` has only nodes of `t`, at their depths, with their parents or none. -/
def RllmLinks.Sub (t' t : RllmLinks) : Prop :=
  ∀ x l, t' x = some l → ∃ l0, t x = some l0 ∧ l.depth = l0.depth ∧
    (l.parent = l0.parent ∨ l.parent = none)

namespace RllmLinks.Sub
variable {t t' t'' : RllmLinks}

theorem refl (t : RllmLinks) : t.Sub t := fun _ _ hx => ⟨_, hx, rfl, .inl rfl⟩

theorem trans (h1 : t''.Sub t') (h2 : t'.Sub t) : t''.Sub t := fun _ _ hx => by
  obtain ⟨l1, hx1, hd1, hp1⟩ := h1 _ _ hx
  obtain ⟨l0, hx0, hd0, hp0⟩ := h2 _ _ hx1
  refine ⟨l0, hx0, hd1.trans hd0, ?_⟩
  rcases hp1 with hp1 | hp1
  · rcases hp0 with hp0 | hp0
    · exact .inl (hp1.trans hp0)
    · exact .inr (hp1.trans hp0)
  · exact .inr hp1

/-- Changing one node's link without moving it deeper or giving it a new parent. -/
theorem update (t : RllmLinks) (a : Addr) {v : Option RllmLink}
    (hv : ∀ {l}, v = some l → ∃ l0, t a = some l0 ∧ l.depth = l0.depth ∧
      (l.parent = l0.parent ∨ l.parent = none)) : RllmLinks.Sub (Function.update t a v) t :=
  fun _ _ hx => by
  rcases eq_some_of_update hx with ⟨rfl, he⟩ | ⟨-, hx⟩
  · exact hv he
  · exact ⟨_, hx, rfl, .inl rfl⟩

end RllmLinks.Sub

namespace RllmPeakOk
variable {t t' : RllmLinks} {peak peak' D : Nat}

theorem of_sub (h : RllmPeakOk t peak D) (hs : t'.Sub t) : RllmPeakOk t' peak D where
  depth hx := by
    obtain ⟨l0, h0, hd, -⟩ := hs _ _ hx
    rw [hd]; exact h.depth h0
  parent hx hp hpp := by
    obtain ⟨l0, h0, -, hpar⟩ := hs _ _ hx
    obtain ⟨lp0, hp0, hd, -⟩ := hs _ _ hpp
    rw [hd]
    rcases hpar with hpar | hpar
    · exact h.parent h0 (hpar ▸ hp) hp0
    · rw [hpar] at hp; cases hp
  lt := h.lt

theorem mono (h : RllmPeakOk t peak D) (hp : peak ≤ peak') (hlt : peak' < max D 1) :
    RllmPeakOk t peak' D :=
  ⟨fun hx => (h.depth hx).trans hp, fun hx hpar hpp => (h.parent hx hpar hpp).trans hp, hlt⟩

/-- Setting the link of a node no other node names as parent, within the peak. -/
theorem update (h : RllmPeakOk t peak D) {a : Addr} {la : RllmLink} (hd : la.depth.toNat ≤ peak)
    (hne : la.parent ≠ some a)
    (hp : ∀ {pp lpp}, la.parent = some pp → t pp = some lpp → lpp.depth.toNat + 1 ≤ peak)
    (hno : ∀ {x lx}, x ≠ a → t x = some lx → lx.parent ≠ some a) :
    RllmPeakOk (Function.update t a (some la)) peak D where
  depth hx := by
    rcases eq_some_of_update hx with ⟨rfl, he⟩ | ⟨-, hx⟩
    · cases he; exact hd
    · exact h.depth hx
  parent hx hpar hpp := by
    rcases eq_some_of_update hx with ⟨rfl, he⟩ | ⟨hxa, hx'⟩
    · cases he
      rcases eq_some_of_update hpp with ⟨rfl, -⟩ | ⟨-, hpp'⟩
      · exact absurd hpar hne
      · exact hp hpar hpp'
    · rcases eq_some_of_update hpp with ⟨rfl, -⟩ | ⟨-, hpp'⟩
      · exact absurd hpar (hno hxa hx')
      · exact h.parent hx' hpar hpp'
  lt := h.lt

/-- The link `rllm_add_child` makes: `a` one level below `pa`, with the peak covering it. -/
theorem linkUnder (h : RllmPeakOk t peak D) {pa a : Addr} {lp la : RllmLink} (cap : Nat)
    (hpa : t pa = some lp) (hne : pa ≠ a) (hno : ∀ {x lx}, x ≠ a → t x = some lx → lx.parent ≠ some a)
    (hw : (lp.depth + 1).toNat = lp.depth.toNat + 1) (hk : lp.depth.toNat + 1 ≤ peak')
    (hp : peak ≤ peak') (hlt : peak' < max D 1) :
    RllmPeakOk (Function.update (Function.update t pa (some (lp.addChild a cap))) a
      (some { la with parent := some pa, depth := lp.depth + 1 })) peak' D := by
  have hs : RllmLinks.Sub (Function.update t pa (some (lp.addChild a cap))) t :=
    RllmLinks.Sub.update t pa fun he => by cases he; exact ⟨lp, hpa, rfl, .inl rfl⟩
  have h1 := (h.mono hp hlt).of_sub hs
  refine h1.update (by show (lp.depth + 1).toNat ≤ peak'; omega) (by simpa using hne)
    (fun hpar hlpp => ?_) (fun hxa hx => ?_)
  · cases hpar
    rw [Function.update_same] at hlpp
    cases hlpp
    exact hk
  · rcases eq_some_of_update hx with ⟨rfl, he⟩ | ⟨-, hx⟩
    · cases he; exact show lp.parent ≠ some a from hno hne hpa
    · exact hno hxa hx

end RllmPeakOk

/-- The environment's peak statistic against its tree and its depth limit. -/
def RllmEnv.PeakOk (env : RllmEnv) : Prop :=
  RllmPeakOk (rllmLinks env.heap) env.peakDepth env.config.maxDepth.toNat

@[simp] theorem RllmEnv.fire_peakDepth (env : RllmEnv) (s : Bool) (e : RllmEvent) :
    (env.fire s e).peakDepth = env.peakDepth := by unfold RllmEnv.fire; split <;> rfl

/-- `rllm_alloc_context` changes none of the statistics but the count of created nodes. -/
theorem rllmAllocContext_peakDepth (env : RllmEnv) :
    (rllmAllocContext env).2.peakDepth = env.peakDepth := by
  unfold rllmAllocContext
  by_cases h1 : env.config.maxContexts.toNat ≤ env.contexts.length
  · rw [if_pos h1]
  rw [if_neg h1]
  dsimp only [rllmMalloc]
  by_cases h2 : env.contextCapacity ≤ env.contexts.length
  · rw [if_pos h2]
    cases env.mallocFails.headD false <;> cases env.mallocFails.tail.headD false <;>
      cases env.mallocFails.tail.tail.headD false <;>
      cases env.mallocFails.tail.tail.tail.headD false <;> rfl
  · rw [if_neg h2]
    cases env.mallocFails.headD false <;> cases env.mallocFails.tail.headD false <;>
      cases env.mallocFails.tail.tail.headD false <;> rfl

/-- `rllm_add_child` of `a` under `pa` either changes no link, or appends `a` to `pa`'s children
and puts `a` one level below `pa`. -/
theorem rllmAddChild_links {env env' : RllmEnv} {pa a : Addr} (hne : pa ≠ a)
    (h : rllmAddChild env pa a = some env') : env'.peakDepth = env.peakDepth ∧
      env'.config = env.config ∧ (rllmLinks env'.heap = rllmLinks env.heap ∨
      ∃ p c cap, env.heap pa = some p ∧ env.heap a = some c ∧
        rllmLinks env'.heap = Function.update (Function.update (rllmLinks env.heap) pa
          (some (p.link.addChild a cap))) a (some { c.link with parent := some pa, depth := p.depth + 1 })) := by
  unfold rllmAddChild at h
  simp only [Option.bind_eq_bind] at h
  obtain ⟨p, hp, h⟩ := Option.bind_eq_some.mp h
  obtain ⟨c, hc, h⟩ := Option.bind_eq_some.mp h
  have hlinks : ∀ (e : RllmEnv) (cap : Nat), e.heap = env.heap →
      rllmLinks ({ e with heap := (Function.update e.heap pa
        (some { { p with childrenCapacity := cap } with children := p.children ++ [a] })) }.modify a
          fun c => { c with parent := some pa, depth := p.depth + 1 }).heap =
      Function.update (Function.update (rllmLinks env.heap) pa (some (p.link.addChild a cap))) a
        (some { c.link with parent := some pa, depth := p.depth + 1 }) := by
    intro e cap he
    rw [rllmLinks_modify _ a (f := fun c => { c with parent := some pa, depth := p.depth + 1 })
      (g := fun l => { l with parent := some pa, depth := p.depth + 1 }) fun _ => rfl]
    simp only [he, rllmLinks_update, Option.map_some', Function.update_noteq hne.symm,
      rllmLinks_eq_some hc]
    rfl
  by_cases hfull : p.childrenCapacity ≤ p.children.length
  · cases hb : env.mallocFails.headD false <;>
      simp only [hfull, rllmMalloc, hb, if_true, Bool.not_false, Bool.not_true, Bool.false_eq_true,
        if_false, Option.some.injEq] at h <;> subst h
    · exact ⟨rfl, rfl, .inr ⟨p, c, _, hp, hc, hlinks _ (p.childrenCapacity * 2) rfl⟩⟩
    · exact ⟨rfl, rfl, .inl rfl⟩
  · simp only [hfull, if_false, Bool.not_true, Bool.false_eq_true, Option.some.injEq] at h
    subst h
    exact ⟨rfl, rfl, .inr ⟨p, c, _, hp, hc, hlinks _ p.childrenCapacity rfl⟩⟩

/-- `rllm_remove_child` drops a child from a list and clears one parent pointer. -/
theorem rllmRemoveChild_links {env env' : RllmEnv} {p a : Addr} (h : rllmRemoveChild env p a = some env') :
    env'.peakDepth = env.peakDepth ∧ env'.config = env.config ∧
      (rllmLinks env'.heap).Sub (rllmLinks env.heap) := by
  unfold rllmRemoveChild at h
  simp only [Option.bind_eq_bind] at h
  obtain ⟨q, hq, h⟩ := Option.bind_eq_some.mp h
  split_ifs at h
  · obtain ⟨-, -, h⟩ := Option.bind_eq_some.mp h
    cases h
    refine ⟨rfl, rfl, ?_⟩
    rw [rllmLinks_modify _ a (f := fun c => { c with parent := none })
      (g := fun l => { l with parent := none }) fun _ => rfl, rllmLinks_update]
    refine RllmLinks.Sub.trans (RllmLinks.Sub.update _ a fun he => ?_)
      (RllmLinks.Sub.update _ p fun he' => ?_)
    · obtain ⟨l0, h0, he⟩ := Option.map_eq_some'.mp he
      cases he
      exact ⟨l0, h0, rfl, .inr rfl⟩
    · cases he'
      exact ⟨q.link, rllmLinks_eq_some hq, rfl, .inl rfl⟩
  · cases h; exact ⟨rfl, rfl, RllmLinks.Sub.refl _⟩

/-- `rllm_free_context_internal` only frees. -/
theorem rllmFreeContextInternal_sub : ∀ (f : Nat) {heap heap' : Addr → Option RllmContext} {x : Addr},
    rllmFreeContextInternal f heap x = some heap' → ∀ {y n}, heap' y = some n → heap y = some n
  | 0, _, _, _, h, _, _, _ => by cases h
  | f + 1, heap, heap', x, h, y, n, hy => by
    simp only [rllmFreeContextInternal, Option.bind_eq_bind] at h
    obtain ⟨node, -, h⟩ := Option.bind_eq_some.mp h
    obtain ⟨hh, hf, h⟩ := Option.bind_eq_some.mp h
    cases h
    have hfold : ∀ (cs : List Addr) (h0 h1 : Addr → Option RllmContext),
        cs.foldlM (fun h c => rllmFreeContextInternal f h c) h0 = some h1 →
        ∀ {y n}, h1 y = some n → h0 y = some n := by
      intro cs
      induction cs with
      | nil => intro h0 h1 h; cases h; exact id
      | cons c cs ih =>
        intro h0 h1 h y n hy
        simp only [List.foldlM_cons, Option.bind_eq_bind] at h
        obtain ⟨h2, hc, h⟩ := Option.bind_eq_some.mp h
        exact rllmFreeContextInternal_sub f hc (ih _ _ h hy)
    by_cases hyx : y = x
    · subst hyx; simp at hy
    · rw [Function.update_noteq hyx] at hy; exact hfold _ _ _ hf hy

namespace RllmEnv.PeakOk
variable {env env' : RllmEnv}

theorem congr (h : env.PeakOk) (hl : rllmLinks env'.heap = rllmLinks env.heap)
    (hp : env'.peakDepth = env.peakDepth) (hc : env'.config = env.config) : env'.PeakOk := by
  unfold RllmEnv.PeakOk; rw [hl, hp, hc]; exact h

theorem fire (h : env.PeakOk) (s : Bool) (e : RllmEvent) : (env.fire s e).PeakOk :=
  h.congr (by rw [RllmEnv.fire_heap]) (RllmEnv.fire_peakDepth _ _ _) (RllmEnv.fire_config _ _ _)

theorem modify (h : env.PeakOk) (a : Addr) {f : RllmContext → RllmContext}
    (hf : ∀ c, (f c).link = c.link) : (env.modify a f).PeakOk :=
  h.congr (rllmLinks_modify_of_link env a hf) rfl rfl

theorem discard (h : env.PeakOk) (a : Addr) : (rllmDiscard env a).PeakOk := by
  unfold RllmEnv.PeakOk rllmDiscard
  simp only [rllmLinks_update, Option.map_none']
  exact RllmPeakOk.of_sub h (RllmLinks.Sub.update _ a fun he => by cases he)

theorem newEditor (h : env.PeakOk) {l : LlamaContext} {ed : Option TeContext}
    (heq : rllmNewEditor env l = (ed, env')) : env'.PeakOk := by
  obtain ⟨hh, -, -, hc⟩ := rllmNewEditor_tree heq
  have := congrArg Prod.snd heq
  subst this
  exact h.congr (by rw [hh]) rfl hc

/-- After `rllm_alloc_context` on a forest: its fresh node is at depth 0 without a parent, and no
parent pointer names its address. -/
theorem alloc (hf : env.Forest) (h : env.PeakOk) : (rllmAllocContext env).2.PeakOk := by
  obtain ⟨-, hc, ⟨-, hh, -⟩ | ⟨-, -, hl⟩⟩ := rllmAllocContext_tree env
  · exact h.congr (by rw [hh]) (rllmAllocContext_peakDepth env) hc
  · unfold RllmEnv.PeakOk
    rw [hl, rllmAllocContext_peakDepth, hc]
    exact RllmPeakOk.update h (Nat.zero_le _) (fun he => by cases he) (fun he => by cases he)
      fun _ hx hpar => absurd (hf.parent_lt hx hpar) (lt_irrefl _)

/-- Setting the link of a node no other node names as parent, within the peak. -/
theorem setLink (h : env.PeakOk) {a : Addr} {f : RllmContext → RllmContext}
    {g : RllmLink → RllmLink} (hfg : ∀ c, (f c).link = g c.link) {l : RllmLink}
    (hl : rllmLinks env.heap a = some l) (hd : (g l).depth.toNat ≤ env.peakDepth)
    (hne : (g l).parent ≠ some a)
    (hp : ∀ {pp lpp}, (g l).parent = some pp → rllmLinks env.heap pp = some lpp →
      lpp.depth.toNat + 1 ≤ env.peakDepth)
    (hno : ∀ {x lx}, x ≠ a → rllmLinks env.heap x = some lx → lx.parent ≠ some a) :
    (env.modify a f).PeakOk ∧
      rllmLinks (env.modify a f).heap = Function.update (rllmLinks env.heap) a (some (g l)) := by
  have hm := rllmLinks_modify env a hfg
  rw [hl, Option.map_some'] at hm
  refine ⟨?_, hm⟩
  unfold RllmEnv.PeakOk; rw [hm]; exact RllmPeakOk.update h hd hne hp hno

/-- `rllm_destroy` only unlinks and frees. -/
theorem destroy (h : env.PeakOk) {a : Addr} {e : RllmError}
    (hres : rllmDestroy env a = some (e, env')) : env'.PeakOk := by
  unfold rllmDestroy at hres
  simp only [Option.bind_eq_bind] at hres
  obtain ⟨node, -, hres⟩ := Option.bind_eq_some.mp hres
  obtain ⟨env2, hm, hres⟩ := Option.bind_eq_some.mp hres
  obtain ⟨heap', hfr, hres⟩ := Option.bind_eq_some.mp hres
  cases hres
  have h1 := h.fire env.onContextDestroy (.contextDestroy a)
  have h2 : env2.PeakOk := by
    split at hm
    · obtain ⟨hp, hc, hs⟩ := rllmRemoveChild_links hm
      unfold RllmEnv.PeakOk; rw [hp, hc]; exact RllmPeakOk.of_sub h1 hs
    · cases hm; exact h1
  exact RllmPeakOk.of_sub h2 fun _ _ hx => by
    obtain ⟨n, hn, rfl⟩ := rllmLinks_alloc hx
    exact ⟨_, rllmLinks_eq_some (rllmFreeContextInternal_sub _ hfr hn), rfl, .inl rfl⟩

/-- `rllm_create_root` puts its node at depth 0 without a parent. -/
theorem createRoot (hf : env.Forest) (h : env.PeakOk) (config : RllmCtxConfig)
    (newCtx : Option LlamaContext) : (rllmCreateRoot env config newCtx).2.PeakOk := by
  have hA := h.alloc hf
  have hFA := hf.alloc
  unfold rllmCreateRoot
  split
  · next env1 heq => rw [heq] at hA; exact hA
  next a env1 heq =>
  rw [heq] at hA hFA
  obtain ⟨-, hno, hl⟩ := hFA.2 a rfl
  obtain ⟨h2, -⟩ := hA.setLink (f := fun c => { c with relation := .root, config := config, depth := 0 })
    (g := fun l => { l with depth := 0 }) (fun _ => rfl) hl (Nat.zero_le _)
    (fun he => by cases he) (fun he => by cases he) fun _ hx => hno.not_parent hx
  dsimp only
  split
  · exact h2.discard a
  split
  · next heq' => exact (h2.newEditor heq').discard a
  next ed env3 heq' =>
  have h3 := (h2.newEditor heq').modify a (f := fun c => { c with tokenEditor := some ed }) fun _ => rfl
  refine RllmEnv.PeakOk.fire ?_ _ _
  split
  · exact h3.congr rfl rfl rfl
  · exact h3

/-- `rllm_create_peer` puts its node at its reference's depth under its reference's parent, or
one below that parent once linked, and does not touch the peak. -/
theorem createPeer (hf : env.Forest) (h : env.PeakOk) {peer : Addr} {config : RllmCtxConfig}
    {newCtx : Option LlamaContext} {r : Option Addr}
    (hres : rllmCreatePeer env peer config newCtx = some (r, env')) : env'.PeakOk := by
  unfold rllmCreatePeer at hres
  simp only [Option.bind_eq_bind] at hres
  obtain ⟨p, hp, hres⟩ := Option.bind_eq_some.mp hres
  have hpl : rllmLinks env.heap peer = some p.link := rllmLinks_eq_some hp
  have hA := h.alloc hf
  have hFA := hf.alloc
  have hpk := rllmAllocContext_peakDepth env
  have hold : ∀ {x}, x < env.nextAddr → rllmLinks (rllmAllocContext env).2.heap x =
      rllmLinks env.heap x := fun hx => by simp only [rllmLinks, rllmAllocContext_heap_of_lt env hx]
  have hpp : ∀ {pp}, p.parent = some pp → pp < env.nextAddr := hf.parent_lt hpl
  split at hres
  · next heq => rw [heq] at hA; cases hres; exact hA
  next a env1 heq =>
  rw [heq] at hA hFA hold hpk
  obtain ⟨ha, hno, hl⟩ := hFA.2 a rfl
  obtain ⟨hc2, hl2⟩ := hA.setLink
    (f := fun c => { c with relation := .peer, config := config, depth := p.depth, parent := p.parent })
    (g := fun l => { l with depth := p.depth, parent := p.parent }) (fun _ => rfl) hl
    (by rw [hpk]; have := h.depth hpl; exact this) (fun he => absurd (hpp he) (by rw [ha]; exact lt_irrefl _))
    (fun he hlpp => by rw [hpk]; exact h.parent hpl he ((hold (hpp he)).symm.trans hlpp))
    fun _ hx => hno.not_parent hx
  split at hres
  · cases hres; exact hc2.discard a
  split at hres
  · next heq' => cases hres; exact (hc2.newEditor heq').discard a
  next ed env3 heq' =>
  obtain ⟨hh3, -, -, -⟩ := rllmNewEditor_tree heq'
  have hc4 := (hc2.newEditor heq').modify a (f := fun c => { c with tokenEditor := some ed })
    fun _ => rfl
  have hl4 : rllmLinks (env3.modify a fun c => { c with tokenEditor := some ed }).heap =
      Function.update (rllmLinks env1.heap) a
        (some { rllmFreshLink with depth := p.depth, parent := p.parent }) := by
    rw [rllmLinks_modify_of_link _ _ (f := fun c => { c with tokenEditor := some ed }) fun _ => rfl,
      hh3, hl2]
  obtain ⟨env5, hm, hres⟩ := Option.bind_eq_some.mp hres
  cases hres
  refine RllmEnv.PeakOk.fire ?_ _ _
  split at hm
  · next pp hpar =>
    have hne : pp ≠ a := by rw [ha]; exact (hpp hpar).ne
    obtain ⟨hpk5, hcfg5, hl5 | ⟨q, c', cap, hq, -, hl5⟩⟩ := rllmAddChild_links hne hm
    · exact hc4.congr hl5 hpk5 hcfg5
    · have hql := rllmLinks_eq_some hq
      have hka : rllmLinks (env3.modify a fun c => { c with tokenEditor := some ed }).heap a =
          some { rllmFreshLink with depth := p.depth, parent := p.parent } := by
        rw [hl4]; exact Function.update_same _ _ _
      have hk := hc4.parent hka hpar hql
      have hD := hc4.lt
      have hbv := (env3.modify a fun c => { c with tokenEditor := some ed }).config.maxDepth.isLt
      unfold RllmEnv.PeakOk; rw [hl5, hpk5, hcfg5]
      refine hc4.linkUnder cap hql hne (fun hxa hx => ?_)
        (toNat_add_one_of_lt (by omega)) hk le_rfl hD
      rw [hl4, Function.update_noteq hxa] at hx
      exact hno.not_parent hx
  · cases hm; exact hc4

variable (M : LlamaModel)

/-- `rllm_spawn_child` raises the peak to its child's depth: one below the parent once linked,
0 when the link's `realloc` fails. -/
theorem spawnChild (hf : env.Forest) (h : env.PeakOk) {parent : Option Addr}
    {config : RllmCtxConfig} {newCtx : Option LlamaContext} {r : Option Addr}
    (hres : rllmSpawnChild M env parent config newCtx = some (r, env')) : env'.PeakOk := by
  have hf' := hf.spawnChild M hres
  unfold rllmSpawnChild at hres
  rcases parent with _ | pa
  · cases hres; exact h
  simp only [Option.bind_eq_bind] at hres
  obtain ⟨p, hp, hres⟩ := Option.bind_eq_some.mp hres
  split_ifs at hres with hdep
  · cases hres; exact h
  have hpa : pa < env.nextAddr := RllmForest.lt_of_some hf (rllmLinks_eq_some hp)
  have hA := h.alloc hf
  have hFA := hf.alloc
  have hpa1 := rllmAllocContext_heap_of_lt env hpa
  split at hres
  · next heq => rw [heq] at hA; cases hres; exact hA
  next a env1 heq =>
  rw [heq] at hA hFA hpa1
  obtain ⟨ha, hno, -⟩ := hFA.2 a rfl
  have hne : pa ≠ a := ha ▸ hpa.ne
  have hc1 := hA.modify a (f := fun c => { c with relation := .child, config := config }) fun _ => rfl
  split at hres
  · cases hres; exact hc1.discard a
  split at hres
  · next heq' => cases hres; exact (hc1.newEditor heq').discard a
  next ed env3 heq' =>
  obtain ⟨hh3, -, -, -⟩ := rllmNewEditor_tree heq'
  obtain ⟨⟨ed4, env4⟩, hinh, hres⟩ := Option.bind_eq_some.mp hres
  obtain ⟨l4, rfl⟩ := rllmInherit_env M hinh
  have hc4 : { env3 with mallocFails := l4 }.PeakOk := (hc1.newEditor heq').congr rfl rfl rfl
  have hc5 := hc4.modify a (f := fun c => { c with tokenEditor := some ed4 }) fun _ => rfl
  set env4 := ({ env3 with mallocFails := l4 }.modify a fun c => { c with tokenEditor := some ed4 })
    with henv4
  have hl4 : rllmLinks env4.heap = rllmLinks env1.heap := by
    rw [henv4, rllmLinks_modify_of_link _ _ (f := fun c => { c with tokenEditor := some ed4 })
      fun _ => rfl]
    show rllmLinks env3.heap = _
    rw [hh3, rllmLinks_modify_of_link _ _ (f := fun c => { c with relation := .child, config := config })
      fun _ => rfl]
  have hp4 : env4.heap pa = some p := by
    rw [henv4, RllmEnv.modify_heap_of_ne _ _ hne]
    show env3.heap pa = _
    rw [hh3, RllmEnv.modify_heap_of_ne _ _ hne, hpa1, hp]
  obtain ⟨env5, hadd, hres⟩ := Option.bind_eq_some.mp hres
  obtain ⟨c, hc, hres⟩ := Option.bind_eq_some.mp hres
  cases hres
  refine (RllmEnv.PeakOk.fire ?_ _ _).fire _ _
  obtain ⟨hpk5, hcfg5, hlinks⟩ := rllmAddChild_links hne hadd
  have hcD : c.depth.toNat < max env4.config.maxDepth.toNat 1 := by
    unfold RllmEnv.Forest at hf'
    simp only [RllmEnv.fire_heap, RllmEnv.fire_config] at hf'
    rw [← hcfg5]
    exact hf'.depth_lt (rllmLinks_eq_some hc)
  have hlt : max c.depth.toNat env4.peakDepth < max env4.config.maxDepth.toNat 1 :=
    max_lt hcD hc5.lt
  unfold RllmEnv.PeakOk
  show RllmPeakOk (rllmLinks env5.heap) (max c.depth.toNat env5.peakDepth) env5.config.maxDepth.toNat
  rw [hpk5, hcfg5]
  rcases hlinks with hl5 | ⟨p', c', cap, hp', -, hl5⟩
  · rw [hl5]; exact hc5.mono (le_max_right _ _) hlt
  · obtain rfl : p' = p := Option.some.inj (hp'.symm.trans hp4)
    have hca : c.depth = p'.depth + 1 := by
      have := rllmLinks_eq_some hc
      rw [hl5, Function.update_same] at this
      exact congrArg RllmLink.depth (Option.some.inj this).symm
    have hw : (p'.depth + 1).toNat = p'.depth.toNat + 1 := by
      have : p'.depth.toNat < max env.config.maxDepth.toNat 1 := hf.depth_lt (rllmLinks_eq_some hp)
      have := env.config.maxDepth.isLt
      exact toNat_add_one_of_lt (by omega)
    rw [hl5]
    refine hc5.linkUnder cap (rllmLinks_eq_some hp4) hne (fun hxa hx => ?_) hw
      (by rw [hca, hw]; exact le_max_left _ _) (le_max_right _ _) hlt
    rw [hl4] at hx
    exact hno.not_parent hx

/-- `rllm_fork` is a spawn under the source's parent, relabelled. -/
theorem fork (hf : env.Forest) (h : env.PeakOk) {source : Addr} {newCtx : Option LlamaContext}
    {r : Option Addr} (hres : rllmFork M env source newCtx = some (r, env')) : env'.PeakOk := by
  unfold rllmFork at hres
  simp only [Option.bind_eq_bind] at hres
  obtain ⟨s, -, hres⟩ := Option.bind_eq_some.mp hres
  obtain ⟨⟨r1, env1⟩, hsp, hres⟩ := Option.bind_eq_some.mp hres
  have h1 := h.spawnChild M hf hsp
  rcases r1 with _ | a <;> cases hres
  · exact h1
  · exact h1.modify a (f := fun c => { c with relation := .fork }) fun _ => rfl

theorem step (hf : env.Forest) (h : env.PeakOk) {c : RllmCall} (hs : rllmStep M env c = some env') :
    env'.PeakOk := by
  cases c with
  | createRoot config newCtx => cases hs; exact h.createRoot hf config newCtx
  | spawnChild parent config newCtx =>
    obtain ⟨⟨_, _⟩, hr, rfl⟩ := Option.map_eq_some'.mp hs
    exact h.spawnChild M hf hr
  | fork source newCtx =>
    obtain ⟨⟨_, _⟩, hr, rfl⟩ := Option.map_eq_some'.mp hs
    exact h.fork M hf hr
  | createPeer peer config newCtx =>
    obtain ⟨⟨_, _⟩, hr, rfl⟩ := Option.map_eq_some'.mp hs
    exact h.createPeer hf hr
  | destroy a =>
    obtain ⟨⟨_, _⟩, hr, rfl⟩ := Option.map_eq_some'.mp hs
    exact h.destroy hr

end RllmEnv.PeakOk

variable (M : LlamaModel)

theorem RllmReachable.peakOk {config : RllmEnvConfig} {env : RllmEnv}
    (hr : RllmReachable M config env) : env.PeakOk := by
  induction hr with
  | init h =>
    simp only [rllmInit, rllmMalloc] at h
    split_ifs at h
    cases h
    exact ⟨fun hx => by simp [rllmLinks] at hx, fun hx => by simp [rllmLinks] at hx,
      lt_max_of_lt_right Nat.zero_lt_one⟩
  | step _ hr hs ih => exact ih.step M (hr.forest M) hs

/-- On every reachable environment the peak depth `rllm_get_stats` reports is at least the depth
of every live node, peers included, and below `max_depth` (below 1 when the limit is 0). -/
theorem rllmReachable_peakDepth {config : RllmEnvConfig} {env : RllmEnv}
    (hr : RllmReachable M config env) :
    env.peakDepth < max env.config.maxDepth.toNat 1 ∧
      ∀ a n, env.heap a = some n → n.depth.toNat ≤ env.peakDepth :=
  let h := hr.peakOk M
  ⟨h.lt, fun _ _ hn => h.depth (rllmLinks_eq_some hn)⟩

/-- After `rllm_init`, a root and a child of it, the peak is the child's depth 1. -/
theorem rllmReachable_peakDepth_child :
    ∃ env, RllmReachable default ⟨8, 64⟩ env ∧ env.peakDepth = 1 ∧
      env.peakDepth < max env.config.maxDepth.toNat 1 ∧
      ∀ a n, env.heap a = some n → n.depth.toNat ≤ env.peakDepth := by
  obtain ⟨env0, h0⟩ : ∃ e, rllmInit ⟨8, 64⟩ [] = some e := ⟨_, rfl⟩
  obtain ⟨env1, h1⟩ : ∃ e, rllmCreateRoot env0 default (some ⟨[], []⟩) = (some 0, e) := by
    cases h0; exact ⟨_, rfl⟩
  obtain ⟨env2, h2⟩ : ∃ e, rllmSpawnChild default env1 (some 0) default (some ⟨[], []⟩) =
      some (some 1, e) := by
    cases h0; cases h1; exact ⟨_, rfl⟩
  have r2 : RllmReachable default ⟨8, 64⟩ env2 := .step (.spawnChild 0 default (some ⟨[], []⟩))
    (.step (.createRoot default (some ⟨[], []⟩)) (.init h0) (by rw [rllmStep, h1]))
    (by rw [rllmStep, h2]; rfl)
  have hp : env2.peakDepth = 1 := by cases h0; cases h1; cases h2; rfl
  exact ⟨env2, r2, hp, rllmReachable_peakDepth default r2⟩

end TokenEditor
