import TokenEditor.RLLMTreeSteps
import TokenEditor.RLLMMailbox

/-! The mailboxes over whole runs. `rllm_alloc_context` gives every node an empty ring of 32
slots, the tree calls only allocate, relabel, link and free nodes, and the mailbox calls keep the
rings they touch well-formed; so in every environment reachable by both kinds of call each live
node's ring is well-formed, and the mailbox lemmas hold of every node. -/

namespace TokenEditor

/-- The fields of a node the mailbox calls read and write. -/
def RllmContext.ring (c : RllmContext) : List RllmMessage × Nat × Nat × Nat :=
  (c.messageQueue, c.queueHead, c.queueTail, c.queueCapacity)

theorem RllmContext.MailboxOk.of_ring {c c' : RllmContext} (h : c.MailboxOk)
    (hr : c'.ring = c.ring) : c'.MailboxOk := by
  simp only [RllmContext.ring, Prod.mk.injEq] at hr
  exact ⟨hr.2.2.2 ▸ h.capacity, hr.1 ▸ h.length, hr.2.1 ▸ h.head, hr.2.2.1 ▸ h.tail⟩

/-- Every live node of the heap has a well-formed ring. -/
def RllmRingsOk (heap : Addr → Option RllmContext) : Prop :=
  ∀ a c, heap a = some c → c.MailboxOk

/-! ### The changes the tree calls make to the heap -/

namespace RllmRingsOk
variable {heap : Addr → Option RllmContext} {env env' : RllmEnv}

theorem update (h : RllmRingsOk heap) (a : Addr) {v : Option RllmContext}
    (hv : ∀ c, v = some c → c.MailboxOk) : RllmRingsOk (Function.update heap a v) := by
  intro b c hc
  by_cases hb : b = a
  · subst hb
    exact hv c (by rwa [Function.update_same] at hc)
  · exact h b c (by rwa [Function.update_noteq hb] at hc)

theorem congr (h : RllmRingsOk heap) {heap' : Addr → Option RllmContext} (he : heap' = heap) :
    RllmRingsOk heap' :=
  he ▸ h

theorem erase (h : RllmRingsOk heap) (a : Addr) : RllmRingsOk (Function.update heap a none) :=
  h.update a fun _ hc => by cases hc

/-- `RllmEnv.modify` of fields other than the ring. -/
theorem modify (h : RllmRingsOk heap) (a : Addr) {f : RllmContext → RllmContext}
    (hf : ∀ c, (f c).ring = c.ring) : RllmRingsOk (Function.update heap a ((heap a).map f)) :=
  h.update a fun c hc => by
    obtain ⟨c0, h0, rfl⟩ := Option.map_eq_some'.1 hc
    exact (h a c0 h0).of_ring (hf c0)

/-- The node `rllm_alloc_context` makes has an empty ring of 32 slots. -/
theorem alloc (h : RllmRingsOk env.heap) : RllmRingsOk (rllmAllocContext env).2.heap := by
  obtain ⟨-, -, ⟨-, hh, -⟩ | ⟨-, -, hh⟩⟩ := rllmAllocContext_heap env
  · exact h.congr hh
  · refine (h.update _ fun c hc => ?_).congr hh
    cases hc
    exact ⟨rfl, List.length_replicate _ _, Nat.zero_lt_succ _, Nat.zero_lt_succ _⟩

theorem addChild (h : RllmRingsOk env.heap) {pa a : Addr} (hres : rllmAddChild env pa a = some env') :
    RllmRingsOk env'.heap := by
  unfold rllmAddChild at hres
  simp only [Option.bind_eq_bind] at hres
  obtain ⟨p, hp, hres⟩ := Option.bind_eq_some.mp hres
  obtain ⟨-, -, hres⟩ := Option.bind_eq_some.mp hres
  have hlink : ∀ q : RllmContext, q.ring = p.ring →
      RllmRingsOk (Function.update env.heap pa (some { q with children := q.children ++ [a] })) :=
    fun q hq => h.update pa fun c hc => by cases hc; exact (h pa p hp).of_ring hq
  by_cases hfull : p.childrenCapacity ≤ p.children.length
  · cases hb : env.mallocFails.headD false <;>
      simp only [hfull, rllmMalloc, hb, if_true, Bool.not_false, Bool.not_true, Bool.false_eq_true,
        if_false, Option.some.injEq] at hres <;> subst hres
    · exact (hlink { p with childrenCapacity := p.childrenCapacity * 2 } rfl).modify a
        (f := fun c => { c with parent := some pa, depth := p.depth + 1 }) fun _ => rfl
    · exact h
  · simp only [hfull, if_false, Bool.not_true, Bool.false_eq_true, Option.some.injEq] at hres
    subst hres
    exact (hlink p rfl).modify a (f := fun c => { c with parent := some pa, depth := p.depth + 1 })
      fun _ => rfl

theorem removeChild (h : RllmRingsOk env.heap) {pa a : Addr}
    (hres : rllmRemoveChild env pa a = some env') : RllmRingsOk env'.heap := by
  unfold rllmRemoveChild at hres
  simp only [Option.bind_eq_bind] at hres
  obtain ⟨p, hp, hres⟩ := Option.bind_eq_some.mp hres
  split_ifs at hres
  · obtain ⟨-, -, hres⟩ := Option.bind_eq_some.mp hres
    cases hres
    exact (h.update pa fun c hc => by cases hc; exact (h pa p hp).of_ring rfl).modify a
      (f := fun c => { c with parent := none }) fun _ => rfl
  · cases hres; exact h

end RllmRingsOk

/-- `rllm_free_context_internal` only frees. -/
theorem rllmFreeContextInternal_ringsOk : ∀ (n : Nat) {heap heap' : Addr → Option RllmContext}
    {a : Addr}, RllmRingsOk heap → rllmFreeContextInternal n heap a = some heap' → RllmRingsOk heap'
  | 0, _, _, _, _, hf => by cases hf
  | n + 1, heap, heap', a, h, hf => by
    simp only [rllmFreeContextInternal, Option.bind_eq_bind] at hf
    obtain ⟨node, -, hf⟩ := Option.bind_eq_some.mp hf
    obtain ⟨hh, hfold, hf⟩ := Option.bind_eq_some.mp hf
    cases hf
    suffices hcs : ∀ (cs : List Addr) {h0 h1 : Addr → Option RllmContext}, RllmRingsOk h0 →
        cs.foldlM (fun h c => rllmFreeContextInternal n h c) h0 = some h1 → RllmRingsOk h1 from
      (hcs _ h hfold).erase a
    intro cs
    induction cs with
    | nil => intro h0 h1 h0ok hf; cases hf; exact h0ok
    | cons c cs ih =>
      intro h0 h1 h0ok hf
      simp only [List.foldlM_cons, Option.bind_eq_bind] at hf
      obtain ⟨h2, hc, hf⟩ := Option.bind_eq_some.mp hf
      exact ih (rllmFreeContextInternal_ringsOk n h0ok hc) hf

namespace RllmRingsOk
variable {env env' : RllmEnv}

theorem createRoot (h : RllmRingsOk env.heap) (config : RllmCtxConfig)
    (newCtx : Option LlamaContext) : RllmRingsOk (rllmCreateRoot env config newCtx).2.heap := by
  have hA := h.alloc
  unfold rllmCreateRoot
  split
  · next heq => rw [heq] at hA; exact hA
  next a env1 heq =>
  rw [heq] at hA
  have h1 := hA.modify a (f := fun c => { c with relation := .root, config := config, depth := 0 })
    fun _ => rfl
  dsimp only
  split
  · exact h1.erase a
  split
  · next heq' => exact (h1.congr (rllmNewEditor_tree heq').1).erase a
  next ed env3 heq' =>
  have h3 := (h1.congr (rllmNewEditor_tree heq').1).modify a
    (f := fun c => { c with tokenEditor := some ed }) fun _ => rfl
  rw [RllmEnv.fire_heap]
  split <;> exact h3

variable (M : LlamaModel)

theorem spawnChild (h : RllmRingsOk env.heap) {parent : Option Addr} {config : RllmCtxConfig}
    {newCtx : Option LlamaContext} {r : Option Addr}
    (hres : rllmSpawnChild M env parent config newCtx = some (r, env')) : RllmRingsOk env'.heap := by
  unfold rllmSpawnChild at hres
  rcases parent with _ | pa
  · cases hres; exact h
  simp only [Option.bind_eq_bind] at hres
  obtain ⟨p, -, hres⟩ := Option.bind_eq_some.mp hres
  split_ifs at hres
  · cases hres; exact h
  have hA := h.alloc
  split at hres
  · next heq => rw [heq] at hA; cases hres; exact hA
  next a env1 heq =>
  rw [heq] at hA
  have h1 := hA.modify a (f := fun c => { c with relation := .child, config := config }) fun _ => rfl
  split at hres
  · cases hres; exact h1.erase a
  split at hres
  · next heq' => cases hres; exact (h1.congr (rllmNewEditor_tree heq').1).erase a
  next ed env3 heq' =>
  obtain ⟨⟨ed4, env4⟩, hinh, hres⟩ := Option.bind_eq_some.mp hres
  have h4 := (h1.congr ((rllmInherit_tree M hinh).1.trans (rllmNewEditor_tree heq').1)).modify a
    (f := fun c => { c with tokenEditor := some ed4 }) fun _ => rfl
  obtain ⟨env5, hadd, hres⟩ := Option.bind_eq_some.mp hres
  obtain ⟨c, -, hres⟩ := Option.bind_eq_some.mp hres
  cases hres
  rw [RllmEnv.fire_heap, RllmEnv.fire_heap]
  exact (h4.addChild hadd :)

theorem fork (h : RllmRingsOk env.heap) {source : Addr} {newCtx : Option LlamaContext}
    {r : Option Addr} (hres : rllmFork M env source newCtx = some (r, env')) :
    RllmRingsOk env'.heap := by
  unfold rllmFork at hres
  simp only [Option.bind_eq_bind] at hres
  obtain ⟨s, -, hres⟩ := Option.bind_eq_some.mp hres
  obtain ⟨⟨r1, env1⟩, hsp, hres⟩ := Option.bind_eq_some.mp hres
  have h1 := h.spawnChild M hsp
  rcases r1 with _ | a <;> cases hres
  · exact h1
  · exact h1.modify a (f := fun c => { c with relation := .fork }) fun _ => rfl

theorem createPeer (h : RllmRingsOk env.heap) {peer : Addr} {config : RllmCtxConfig}
    {newCtx : Option LlamaContext} {r : Option Addr}
    (hres : rllmCreatePeer env peer config newCtx = some (r, env')) : RllmRingsOk env'.heap := by
  unfold rllmCreatePeer at hres
  simp only [Option.bind_eq_bind] at hres
  obtain ⟨p, -, hres⟩ := Option.bind_eq_some.mp hres
  have hA := h.alloc
  split at hres
  · next heq => rw [heq] at hA; cases hres; exact hA
  next a env1 heq =>
  rw [heq] at hA
  have h1 := hA.modify a (f := fun c =>
    { c with relation := .peer, config := config, depth := p.depth, parent := p.parent }) fun _ => rfl
  split at hres
  · cases hres; exact h1.erase a
  split at hres
  · next heq' => cases hres; exact (h1.congr (rllmNewEditor_tree heq').1).erase a
  next ed env3 heq' =>
  have h3 := (h1.congr (rllmNewEditor_tree heq').1).modify a
    (f := fun c => { c with tokenEditor := some ed }) fun _ => rfl
  obtain ⟨env5, hm, hres⟩ := Option.bind_eq_some.mp hres
  cases hres
  rw [RllmEnv.fire_heap]
  split at hm
  · exact h3.addChild hm
  · cases hm; exact h3

theorem destroy (h : RllmRingsOk env.heap) {a : Addr} {e : RllmError}
    (hres : rllmDestroy env a = some (e, env')) : RllmRingsOk env'.heap := by
  unfold rllmDestroy at hres
  simp only [Option.bind_eq_bind] at hres
  obtain ⟨node, -, hres⟩ := Option.bind_eq_some.mp hres
  obtain ⟨env2, hm, hres⟩ := Option.bind_eq_some.mp hres
  obtain ⟨heap', hf, hres⟩ := Option.bind_eq_some.mp hres
  cases hres
  have h1 := h.congr (RllmEnv.fire_heap env env.onContextDestroy (.contextDestroy a))
  have h2 : RllmRingsOk env2.heap := by
    split at hm
    · exact h1.removeChild hm
    · cases hm; exact h1
  exact rllmFreeContextInternal_ringsOk _ h2 hf

/-- Every tree call keeps every live ring well-formed. -/
theorem step (h : RllmRingsOk env.heap) {c : RllmCall} (hs : rllmStep M env c = some env') :
    RllmRingsOk env'.heap := by
  cases c with
  | createRoot config newCtx => cases hs; exact h.createRoot config newCtx
  | spawnChild parent config newCtx =>
    obtain ⟨⟨_, _⟩, hr, rfl⟩ := Option.map_eq_some'.mp hs
    exact h.spawnChild M hr
  | fork source newCtx =>
    obtain ⟨⟨_, _⟩, hr, rfl⟩ := Option.map_eq_some'.mp hs
    exact h.fork M hr
  | createPeer peer config newCtx =>
    obtain ⟨⟨_, _⟩, hr, rfl⟩ := Option.map_eq_some'.mp hs
    exact h.createPeer hr
  | destroy a =>
    obtain ⟨⟨_, _⟩, hr, rfl⟩ := Option.map_eq_some'.mp hs
    exact h.destroy hr

end RllmRingsOk

/-! ### The mailbox calls, and runs of both kinds of call -/

section Mail
variable {env env' : RllmEnv}

theorem rllmSendMessage_heap_none {src : Option Addr} {d : Addr} {msg : Option RllmMessage}
    {e : RllmError} {i : Option Nat} (h : rllmSendMessage env src (some d) msg = some (e, env', i))
    {a : Addr} (ha : env.heap a = none) : env'.heap a = none := by
  by_cases had : a = d
  · subst had
    rcases src with _ | s
    · cases h; exact ha
    rcases msg with _ | m
    · cases h; exact ha
    simp [rllmSendMessage, ha] at h
  · rw [rllmSendMessage_frame h had, ha]

theorem rllmRecvMessage_heap_none {d : Addr} {timeoutMs : Nat} {e : RllmError}
    {mo : Option RllmMessage} (h : rllmRecvMessage env (some d) timeoutMs = some (e, mo, env'))
    {a : Addr} (ha : env.heap a = none) : env'.heap a = none := by
  by_cases had : a = d
  · subst had
    simp [rllmRecvMessage, ha] at h
  · rw [rllmRecvMessage_frame h had, ha]

/-- No mailbox call allocates a node. -/
theorem rllmMailStep_heap_none {c : RllmMailCall} {evs : List RllmMailEvent}
    (hs : rllmMailStep env c = some (env', evs)) {a : Addr} (ha : env.heap a = none) :
    env'.heap a = none := by
  cases c with
  | send s d m | sendText s d m _ | sendTokens s d m _ =>
    obtain ⟨⟨_, _, _⟩, hr, he⟩ := Option.map_eq_some'.1 hs
    cases he; exact rllmSendMessage_heap_none hr ha
  | recv d timeoutMs =>
    obtain ⟨⟨_, _, _⟩, hr, he⟩ := Option.map_eq_some'.1 hs
    cases he; exact rllmRecvMessage_heap_none hr ha
  | hasMessages d =>
    obtain ⟨-, -, he⟩ := Option.map_eq_some'.1 hs
    cases he; exact ha
  | setOnMessage d set =>
    obtain ⟨-, -, he⟩ := Option.map_eq_some'.1 hs
    cases he
    rw [RllmEnv.modify_heap, ha]
    split <;> rfl

/-- Every mailbox call keeps every live ring well-formed. -/
theorem RllmRingsOk.mailStep (h : RllmRingsOk env.heap) {c : RllmMailCall}
    {evs : List RllmMailEvent} (hs : rllmMailStep env c = some (env', evs)) :
    RllmRingsOk env'.heap := by
  intro a c' hc'
  cases ha : env.heap a with
  | none => rw [rllmMailStep_heap_none hs ha] at hc'; cases hc'
  | some t =>
    obtain ⟨t', ht', hok, -⟩ := rllmMailStep_fifo ha (h a t ha) hs
    rw [ht'] at hc'
    cases hc'
    exact hok

end Mail

variable (M : LlamaModel)

/-- The environments reachable from a successful `rllm_init` by tree calls and mailbox calls. -/
inductive RllmMailReachable (config : RllmEnvConfig) : RllmEnv → Prop
  | init {heap : List Bool} {env : RllmEnv} (h : rllmInit config heap = some env) :
      RllmMailReachable config env
  | step {env env' : RllmEnv} (c : RllmCall) (h : RllmMailReachable config env)
      (hs : rllmStep M env c = some env') : RllmMailReachable config env'
  | mail {env env' : RllmEnv} {evs : List RllmMailEvent} (c : RllmMailCall)
      (h : RllmMailReachable config env) (hs : rllmMailStep env c = some (env', evs)) :
      RllmMailReachable config env'

section Reach
variable {M} {config : RllmEnvConfig} {env env' : RllmEnv}

theorem RllmReachable.mailReachable (h : RllmReachable M config env) :
    RllmMailReachable M config env := by
  induction h with
  | init h => exact .init h
  | step c _ hs ih => exact .step c ih hs

theorem RllmMailReachable.run (h : RllmMailReachable M config env) :
    ∀ {calls : List RllmMailCall} {evs : List RllmMailEvent},
      rllmMailRun env calls = some (env', evs) → RllmMailReachable M config env' := by
  intro calls
  induction calls generalizing env with
  | nil => intro evs hr; cases hr; exact h
  | cons c cs ih =>
    intro evs hr
    simp only [rllmMailRun, Option.bind_eq_bind] at hr
    obtain ⟨⟨env1, evs1⟩, h1, hr⟩ := Option.bind_eq_some.1 hr
    obtain ⟨⟨env2, evs2⟩, h2, hr⟩ := Option.bind_eq_some.1 hr
    cases hr
    exact ih (.mail c h h1) h2

theorem rllmInit_ringsOk {heap : List Bool} (h : rllmInit config heap = some env) :
    RllmRingsOk env.heap := by
  simp only [rllmInit, rllmMalloc] at h
  split_ifs at h
  cases h
  intro _ _ hc
  cases hc

/-- In every environment reachable by tree and mailbox calls, every live node's ring is
well-formed. -/
theorem RllmMailReachable.ringsOk (h : RllmMailReachable M config env) : RllmRingsOk env.heap := by
  induction h with
  | init h => exact rllmInit_ringsOk h
  | step _ _ hs ih => exact ih.step M hs
  | mail _ _ hs ih => exact ih.mailStep hs

end Reach

section Returns
variable {env : RllmEnv} {d : Addr} {t : RllmContext}

/-- A send to a node whose ring has room returns when the copy of its data does. -/
theorem rllmSendMessage_isSome {s : Addr} {f : RllmContext} {m : RllmMessage}
    (hs : env.heap s = some f) (hd : env.heap d = some t) (ht : t.MailboxOk)
    (hroom : t.pending.length < 31) {data : Option (List UInt8)} {env1 : RllmEnv}
    (hc : rllmCopyData env { m with sender := f.id, receiver := t.id } = some (data, env1)) :
    ∃ r, rllmSendMessage env (some s) (some d) (some m) = some r := by
  simp only [rllmSendMessage, hs, hd, Option.bind_eq_bind, Option.some_bind]
  rw [if_neg (by rw [ht.full_iff]; omega), hc]
  simp only [Option.some_bind, blockWrite_singleton _ (ht.length ▸ ht.tail)]
  exact ⟨_, rfl⟩

/-- A receive from a node with a pending message returns. -/
theorem rllmRecvMessage_isSome (hd : env.heap d = some t) (ht : t.MailboxOk) (hne : t.pending ≠ [])
    (timeoutMs : Nat) : ∃ r, rllmRecvMessage env (some d) timeoutMs = some r := by
  have hne' := ht.has_iff.2 hne
  obtain ⟨m, rest, hp⟩ := List.exists_cons_of_ne_nil hne
  simp only [rllmRecvMessage, hd, Option.bind_eq_bind, Option.some_bind, if_neg hne',
    (ht.pending_pop hne').2, hp, List.head?_cons]
  exact ⟨_, rfl⟩

/-- `on_message` is handed `queue_tail - 1` read after the tail has moved: the slot just written,
unless that slot is the last one, when the tail wraps to 0 and the index is `SIZE_MAX`. -/
theorem rllmSendMessage_callback {s : Addr} {f : RllmContext} {m : RllmMessage} {env' : RllmEnv}
    {i : Option Nat} (hs : env.heap s = some f) (hd : env.heap d = some t) (ht : t.MailboxOk)
    (hon : t.onMessage = true) (h : rllmSendMessage env (some s) (some d) (some m) = some (.ok, env', i)) :
    i = some (if t.queueTail = 31 then 2 ^ 64 - 1 else t.queueTail) := by
  rcases rllmSendMessage_spec hs hd ht h with ⟨-, h, -⟩ | ⟨-, -, -, -, -, hi⟩
  · cases h
  rw [hi, if_pos hon, ht.capacity, Option.some.injEq]
  have := ht.tail
  split_ifs <;> omega

end Returns

section Rounds
variable {M} {config : RllmEnvConfig}

/-- On a node with an empty ring, a send to itself of a message without data and a receive both
succeed and leave the ring empty, one slot further. -/
theorem rllmSendRecv_round {env : RllmEnv} {d : Addr} {t : RllmContext}
    (hd : env.heap d = some t) (ht : t.MailboxOk) (he : t.queueHead = t.queueTail)
    {m : RllmMessage} (hm : m.data = none) (timeoutMs : Nat) :
    ∃ env1 evs1 env2 evs2 t2, rllmMailStep env (.send d d m) = some (env1, evs1) ∧
      rllmMailStep env1 (.recv d timeoutMs) = some (env2, evs2) ∧ env2.heap d = some t2 ∧
      t2.queueHead = (t.queueHead + 1) % 32 ∧ t2.queueTail = t2.queueHead ∧
      t2.onMessage = t.onMessage := by
  have hlen : t.pending.length = 0 := by rw [ht.length_pending, he]; omega
  obtain ⟨⟨e, env1, i⟩, hs⟩ := rllmSendMessage_isSome hd hd ht (by omega)
    (show rllmCopyData env { m with sender := t.id, receiver := t.id } = some (none, env) by
      simp [rllmCopyData, hm])
  rcases rllmSendMessage_spec hd hd ht hs with ⟨h31, -⟩ | ⟨-, rfl, m', -, hheap, -⟩
  · omega
  have hd1 : env1.heap d = some { t with messageQueue := t.messageQueue.set t.queueTail m'
                                         queueTail := (t.queueTail + 1) % t.queueCapacity } := by
    rw [hheap, Function.update_same]
  have ht1 := ht.push m'
  have hne : ({ t with messageQueue := t.messageQueue.set t.queueTail m'
                       queueTail := (t.queueTail + 1) % t.queueCapacity }).pending ≠ [] := by
    rw [ht.pending_push (by rw [Ne, ht.full_iff]; omega) m']
    exact List.append_ne_nil_of_right_ne_nil _ (List.cons_ne_nil _ _)
  obtain ⟨⟨e2, mo, env2⟩, hr⟩ := rllmRecvMessage_isSome hd1 ht1 hne timeoutMs
  rcases rllmRecvMessage_spec hd1 ht1 hr with ⟨hp, -⟩ | ⟨-, -, -, -, hheap2⟩
  · exact absurd hp hne
  have hd2 : env2.heap d = some { t with messageQueue := t.messageQueue.set t.queueTail m'
                                         queueTail := (t.queueTail + 1) % t.queueCapacity
                                         queueHead := (t.queueHead + 1) % t.queueCapacity } := by
    rw [hheap2, Function.update_same]
  refine ⟨env1, _, env2, _, _, by rw [rllmMailStep, hs]; rfl, by rw [rllmMailStep, hr]; rfl, hd2,
    by rw [ht.capacity], by rw [he], rfl⟩

/-- `k` rounds of a send and a receive on a node with an empty ring, in a reachable environment,
reach one where the ring is empty `k` slots further. -/
theorem RllmMailReachable.rounds {d : Addr} {m : RllmMessage} (hm : m.data = none) (timeoutMs : Nat)
    (k : Nat) : ∀ {env : RllmEnv} {t : RllmContext}, RllmMailReachable M config env →
      env.heap d = some t → t.queueHead = t.queueTail →
      ∃ env' t', RllmMailReachable M config env' ∧ env'.heap d = some t' ∧
        t'.queueHead = (t.queueHead + k) % 32 ∧ t'.queueTail = t'.queueHead ∧
        t'.onMessage = t.onMessage := by
  induction k with
  | zero =>
    intro env t hr hd he
    exact ⟨env, t, hr, hd, by rw [Nat.add_zero, Nat.mod_eq_of_lt (hr.ringsOk d t hd).head], he.symm,
      rfl⟩
  | succ k ih =>
    intro env t hr hd he
    obtain ⟨env1, _, env2, _, t2, h1, h2, hd2, hh2, he2, hon2⟩ :=
      rllmSendRecv_round hd (hr.ringsOk d t hd) he hm timeoutMs
    obtain ⟨env', t', hr', hd', hh', he', hon'⟩ := ih ((hr.mail _ h1).mail _ h2) hd2 he2.symm
    exact ⟨env', t', hr', hd', by rw [hh', hh2]; omega, he', hon'.trans hon2⟩

end Rounds

/-- From `rllm_init`, one root with `on_message` set, and 31 rounds of a send to itself and a
receive, the ring is empty with `queue_tail = 31`. The next send stores the message in slot 31,
wraps the tail to 0, and hands the callback the slot `queue_tail - 1 = SIZE_MAX`, past the 32
slots, instead of slot 31. -/
theorem rllmSendMessage_callback_past_ring :
    ∃ env t env' m', RllmMailReachable default ⟨8, 64⟩ env ∧ env.heap 0 = some t ∧
      t.MailboxOk ∧ t.onMessage = true ∧ t.queueTail = 31 ∧
      rllmSendMessage env (some 0) (some 0) (some default) = some (.ok, env', some (2 ^ 64 - 1)) ∧
      env'.heap 0 = some { t with messageQueue := t.messageQueue.set 31 m', queueTail := 0 } ∧
      (t.messageQueue.set 31 m')[31]? = some m' ∧ t.queueCapacity ≤ 2 ^ 64 - 1 := by
  obtain ⟨env0, h0⟩ : ∃ e, rllmInit ⟨8, 64⟩ [] = some e := ⟨_, rfl⟩
  have hr1 : RllmMailReachable default ⟨8, 64⟩ (rllmCreateRoot env0 default (some ⟨[], []⟩)).2 :=
    .step (.createRoot default (some ⟨[], []⟩)) (.init h0) rfl
  obtain ⟨t0, ht0⟩ : ∃ t, (rllmCreateRoot env0 default (some ⟨[], []⟩)).2.heap 0 = some t := by
    cases h0; exact ⟨_, rfl⟩
  have h00 : t0.queueHead = 0 ∧ t0.queueTail = 0 := by cases h0; cases ht0; exact ⟨rfl, rfl⟩
  have hr2 : RllmMailReachable default ⟨8, 64⟩ ((rllmCreateRoot env0 default (some ⟨[], []⟩)).2.modify 0
      fun c => { c with onMessage := true }) :=
    hr1.mail (.setOnMessage 0 true) (show _ = some (_, []) by
      simp only [rllmMailStep, ht0, Option.map_some'])
  have hd2 : ((rllmCreateRoot env0 default (some ⟨[], []⟩)).2.modify 0
      fun c => { c with onMessage := true }).heap 0 = some { t0 with onMessage := true } := by
    simp only [RllmEnv.modify, Function.update_same, ht0, Option.map_some']
  obtain ⟨env, t, hr, hd, hh, htl, hon⟩ :=
    hr2.rounds (m := default) rfl 0 31 hd2 (h00.1.trans h00.2.symm)
  have hok := hr.ringsOk 0 t hd
  rw [h00.1] at hh
  have hlen : t.pending.length = 0 := by rw [hok.length_pending, htl]; omega
  obtain ⟨⟨e, env', i⟩, hs⟩ := rllmSendMessage_isSome hd hd hok (by omega)
    (show rllmCopyData env { (default : RllmMessage) with sender := t.id, receiver := t.id } =
      some (none, env) from rfl)
  rcases rllmSendMessage_spec hd hd hok hs with ⟨h31, -⟩ | ⟨-, rfl, m', -, hheap, -⟩
  · omega
  have htail : t.queueTail = 31 := by rw [htl, hh]
  refine ⟨env, t, env', m', hr, hd, hok, hon, htail, ?_, ?_, ?_, by rw [hok.capacity]; decide⟩
  · rw [hs, rllmSendMessage_callback hd hd hok hon hs, if_pos htail]
  · rw [hheap, Function.update_same, htail, hok.capacity]
  · rw [List.getElem?_set_self (by rw [hok.length]; decide)]

end TokenEditor
