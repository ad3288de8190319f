import Mathlib.Data.List.Rotate
import TokenEditor.RLLMIds

/-! Mailboxes. A node's queue is a ring of `queue_capacity = 32` slots; the messages it holds are
the slots from `queue_head` up to `queue_tail`, oldest first. A send appends to that list unless
it holds 31 messages, a receive takes its first message, and over any run of mailbox calls what
a node hands out, followed by what it still holds, is what it held followed by what was
delivered to it. -/

namespace TokenEditor

/-- The ring of a node as `rllm_alloc_context` makes it and the mailbox calls keep it. -/
structure RllmContext.MailboxOk (c : RllmContext) : Prop where
  capacity : c.queueCapacity = 32
  length : c.messageQueue.length = 32
  head : c.queueHead < 32
  tail : c.queueTail < 32

/-- The pending messages: the slots from `queue_head` up to `queue_tail`, oldest first. -/
def RllmContext.pending (c : RllmContext) : List RllmMessage :=
  (c.messageQueue.rotate c.queueHead).take
    ((c.queueTail + c.queueCapacity - c.queueHead) % c.queueCapacity)

namespace RllmContext.MailboxOk

variable {c : RllmContext} (h : c.MailboxOk)
include h

theorem length_pending : c.pending.length = (c.queueTail + 32 - c.queueHead) % 32 := by
  rw [RllmContext.pending, List.length_take, List.length_rotate, h.length, h.capacity]
  omega

theorem getElem?_pending (i : Nat) :
    c.pending[i]? = if i < (c.queueTail + 32 - c.queueHead) % 32 then
      c.messageQueue[(c.queueHead + i) % 32]? else none := by
  rw [RllmContext.pending, List.getElem?_take, h.capacity]
  split
  · rw [List.getElem?_rotate (by rw [h.length]; omega), h.length, Nat.add_comm]
  · rfl

/-- The ring is full, for `rllm_send_message`, exactly when 31 messages are pending. -/
theorem full_iff : (c.queueTail + 1) % c.queueCapacity = c.queueHead ↔ c.pending.length = 31 := by
  have := h.head; have := h.tail
  rw [h.length_pending, h.capacity]
  omega

/-- `rllm_has_messages` answers whether a message is pending. -/
theorem has_iff : c.queueHead ≠ c.queueTail ↔ c.pending ≠ [] := by
  have := h.head; have := h.tail
  simp only [ne_eq, ← List.length_eq_zero, h.length_pending]
  omega

theorem push (m : RllmMessage) :
    RllmContext.MailboxOk { c with messageQueue := c.messageQueue.set c.queueTail m
                                   queueTail := (c.queueTail + 1) % c.queueCapacity } :=
  ⟨h.capacity, by simp [h.length], h.head,
    show (c.queueTail + 1) % c.queueCapacity < 32 by rw [h.capacity]; omega⟩

theorem pop : RllmContext.MailboxOk { c with queueHead := (c.queueHead + 1) % c.queueCapacity } :=
  ⟨h.capacity, h.length, show (c.queueHead + 1) % c.queueCapacity < 32 by rw [h.capacity]; omega,
    h.tail⟩

/-- Writing the slot at the tail and moving the tail appends to the pending messages. -/
theorem pending_push (hfull : (c.queueTail + 1) % c.queueCapacity ≠ c.queueHead)
    (m : RllmMessage) :
    { c with messageQueue := c.messageQueue.set c.queueTail m
             queueTail := (c.queueTail + 1) % c.queueCapacity }.pending = c.pending ++ [m] := by
  have := h.head; have := h.tail
  have hlen := h.length_pending
  rw [h.capacity] at hfull
  have h' := h.push m
  apply List.ext_getElem?
  intro i
  rw [h'.getElem?_pending]
  simp only [List.getElem?_set, List.length_set, h.length, h.capacity]
  rcases Nat.lt_trichotomy i ((c.queueTail + 32 - c.queueHead) % 32) with hi | rfl | hi
  · rw [List.getElem?_append_left (by omega), h.getElem?_pending, if_pos hi, if_pos (by omega),
      if_neg (by omega)]
  · rw [← hlen, List.getElem?_concat_length, if_pos (by omega), if_pos (by omega),
      if_pos (by omega)]
  · rw [List.getElem?_eq_none (l := c.pending ++ [m])
      (by simp only [List.length_append, List.length_singleton]; omega), if_neg (by omega)]

/-- Moving the head drops the first pending message, which is the slot at the head. -/
theorem pending_pop (hne : c.queueHead ≠ c.queueTail) :
    { c with queueHead := (c.queueHead + 1) % c.queueCapacity }.pending = c.pending.tail ∧
      c.messageQueue[c.queueHead]? = c.pending.head? := by
  have := h.head; have := h.tail
  have h' := h.pop
  refine ⟨List.ext_getElem? fun i => ?_, ?_⟩
  · rw [h'.getElem?_pending, List.getElem?_tail, h.getElem?_pending]
    simp only [h.capacity]
    rw [show (c.queueHead + (i + 1)) % 32 = ((c.queueHead + 1) % 32 + i) % 32 by omega]
    split_ifs <;> first | rfl | omega
  · rw [List.head?_eq_getElem?, h.getElem?_pending, if_pos (by omega), Nat.add_zero,
      Nat.mod_eq_of_lt h.head]

end RllmContext.MailboxOk

/-! ### The calls on the environment -/

section Calls
variable {env env' : RllmEnv}

theorem RllmEnv.modify_heap (env : RllmEnv) (a : Addr) (f : RllmContext → RllmContext) (d : Addr) :
    (env.modify a f).heap d = if d = a then (env.heap d).map f else env.heap d := by
  simp only [RllmEnv.modify, Function.update_apply]
  split <;> simp_all

/-- The copy of the data only draws on the allocator. What it stores: a fresh copy of the
`data_size` bytes when the data is present, its size positive and the allocation succeeds; `NULL`
when that allocation fails; otherwise the caller's pointer. -/
theorem rllmCopyData_spec {m : RllmMessage} {data : Option (List UInt8)}
    (h : rllmCopyData env m = some (data, env')) : env'.heap = env.heap ∧
    data = match m.data with
      | some bytes => if 0 < m.dataSize then
          (if env.mallocFails.headD false then none else some (bytes.take m.dataSize))
        else some bytes
      | none => none := by
  unfold rllmCopyData at h
  rcases hm : m.data with _ | bytes <;> simp only [hm] at h ⊢
  · cases h; exact ⟨rfl, rfl⟩
  · by_cases hpos : 0 < m.dataSize
    · simp only [if_pos hpos, rllmMalloc] at h ⊢
      cases hf : env.mallocFails.headD false <;>
        simp only [hf, Bool.not_false, Bool.not_true, Bool.false_eq_true, ↓reduceIte,
          Option.map_eq_some', Option.some.injEq, Prod.mk.injEq] at h ⊢
      · obtain ⟨b, hr, rfl, rfl⟩ := h
        unfold blockRead at hr
        split at hr
        · cases hr; exact ⟨rfl, by rw [List.drop_zero]⟩
        · cases hr
      · obtain ⟨rfl, rfl⟩ := h
        exact ⟨rfl, rfl⟩
    · simp only [if_neg hpos] at h ⊢
      cases h; exact ⟨rfl, rfl⟩

/-- The message `rllm_send_message` writes into the receiver's slot: stamped with both ids, its
data the copy `rllmCopyData` makes. -/
def rllmEnqueued (env : RllmEnv) (s d : Addr) (m : RllmMessage) : Option RllmMessage := do
  let f ← env.heap s
  let t ← env.heap d
  let m := { m with sender := f.id, receiver := t.id }
  let (data, _) ← rllmCopyData env m
  some { m with data := data }

/-- `rllm_send_message` to a node with a well-formed ring: `ERROR_MEMORY` with nothing changed
when 31 messages are pending; otherwise `OK`, the enqueued message written at the tail and the
tail moved, and the callback handed `queue_tail - 1` read after the move. -/
theorem rllmSendMessage_spec {s d : Addr} {m : RllmMessage} {f t : RllmContext} {e : RllmError}
    {i : Option Nat} (hs : env.heap s = some f) (hd : env.heap d = some t) (ht : t.MailboxOk)
    (h : rllmSendMessage env (some s) (some d) (some m) = some (e, env', i)) :
    (t.pending.length = 31 ∧ e = .errorMemory ∧ env' = env ∧ i = none) ∨
    (t.pending.length < 31 ∧ e = .ok ∧ ∃ m', rllmEnqueued env s d m = some m' ∧
      env'.heap = Function.update env.heap d (some
        { t with messageQueue := t.messageQueue.set t.queueTail m'
                 queueTail := (t.queueTail + 1) % t.queueCapacity }) ∧
      i = if t.onMessage then some (((t.queueTail + 1) % t.queueCapacity + 2 ^ 64 - 1) % 2 ^ 64)
        else none) := by
  simp only [rllmSendMessage, hs, hd, Option.bind_eq_bind, Option.some_bind] at h
  by_cases hfull : (t.queueTail + 1) % t.queueCapacity = t.queueHead
  · rw [if_pos hfull] at h
    cases h
    exact .inl ⟨ht.full_iff.1 hfull, rfl, rfl, rfl⟩
  · rw [if_neg hfull] at h
    obtain ⟨⟨data, env1⟩, hc, h⟩ := Option.bind_eq_some.1 h
    have hc' := rllmCopyData_spec hc
    simp only [blockWrite_singleton _ (ht.length ▸ ht.tail), Option.some_bind,
      Option.some.injEq, Prod.mk.injEq] at h
    obtain ⟨rfl, rfl, rfl⟩ := h
    have hlen := ht.length_pending
    refine .inr ⟨by rw [ht.full_iff] at hfull; have := hlen ▸ ht.length_pending; omega, rfl, _,
      by simp only [rllmEnqueued, hs, hd, hc, Option.bind_eq_bind, Option.some_bind]; rfl, ?_, rfl⟩
    simp only [RllmEnv.modify, hc'.1, hd, Option.map_some']

/-- `rllm_recv_message` on a node with a well-formed ring: on an empty ring it times out with
nothing changed; otherwise it returns the oldest pending message and moves the head. -/
theorem rllmRecvMessage_spec {d : Addr} {t : RllmContext} {timeoutMs : Nat} {e : RllmError}
    {mo : Option RllmMessage} (hd : env.heap d = some t) (ht : t.MailboxOk)
    (h : rllmRecvMessage env (some d) timeoutMs = some (e, mo, env')) :
    (t.pending = [] ∧ e = .errorTimeout ∧ mo = none ∧ env' = env) ∨
    (∃ m, t.pending.head? = some m ∧ e = .ok ∧ mo = some m ∧
      env'.heap = Function.update env.heap d (some
        { t with queueHead := (t.queueHead + 1) % t.queueCapacity })) := by
  simp only [rllmRecvMessage, hd, Option.bind_eq_bind, Option.some_bind] at h
  by_cases hemp : t.queueHead = t.queueTail
  · rw [if_pos hemp] at h
    split at h
    · cases h
      exact .inl ⟨by simpa using mt ht.has_iff.2 (not_not.2 hemp), rfl, rfl, rfl⟩
    · cases h
  · rw [if_neg hemp] at h
    obtain ⟨m, hm, h⟩ := Option.bind_eq_some.1 h
    cases h
    refine .inr ⟨m, (ht.pending_pop hemp).2 ▸ hm, rfl, rfl, ?_⟩
    simp only [RllmEnv.modify, hd, Option.map_some']

/-- A send changes no node but the receiver. -/
theorem rllmSendMessage_frame {src : Option Addr} {d0 : Addr} {msg : Option RllmMessage}
    {e : RllmError} {i : Option Nat} (h : rllmSendMessage env src (some d0) msg = some (e, env', i))
    {a : Addr} (ha : a ≠ d0) : env'.heap a = env.heap a := by
  rcases src with _ | s
  · cases h; rfl
  rcases msg with _ | m
  · cases h; rfl
  simp only [rllmSendMessage, Option.bind_eq_bind] at h
  obtain ⟨f, -, h⟩ := Option.bind_eq_some.1 h
  obtain ⟨t, -, h⟩ := Option.bind_eq_some.1 h
  by_cases hfull : (t.queueTail + 1) % t.queueCapacity = t.queueHead
  · rw [if_pos hfull] at h
    cases h; rfl
  · rw [if_neg hfull] at h
    obtain ⟨⟨data, env1⟩, hc, h⟩ := Option.bind_eq_some.1 h
    obtain ⟨q, -, h⟩ := Option.bind_eq_some.1 h
    cases h
    rw [RllmEnv.modify_heap, if_neg ha, (rllmCopyData_spec hc).1]

/-- A receive changes no node but its own. -/
theorem rllmRecvMessage_frame {d0 : Addr} {timeoutMs : Nat} {e : RllmError}
    {mo : Option RllmMessage} (h : rllmRecvMessage env (some d0) timeoutMs = some (e, mo, env'))
    {a : Addr} (ha : a ≠ d0) : env'.heap a = env.heap a := by
  simp only [rllmRecvMessage, Option.bind_eq_bind] at h
  obtain ⟨c, -, h⟩ := Option.bind_eq_some.1 h
  split_ifs at h
  · cases h; rfl
  · obtain ⟨m, -, h⟩ := Option.bind_eq_some.1 h
    cases h
    rw [RllmEnv.modify_heap, if_neg ha]

end Calls

/-! ### Runs of mailbox calls -/

/-- A mailbox call: the three sends, a receive, the pending test, and the client's assignment of
the public `on_message` field. -/
inductive RllmMailCall
  | send (src dst : Addr) (msg : RllmMessage)
  | sendText (src dst : Addr) (text : List UInt8) (len : Nat)
  | sendTokens (src dst : Addr) (tokens : List Int32) (nTokens : Nat)
  | recv (a : Addr) (timeoutMs : Nat)
  | hasMessages (a : Addr)
  | setOnMessage (a : Addr) (set : Bool)

/-- What a call does to the mailboxes: a message enqueued at a node, or received from one. -/
inductive RllmMailEvent
  | delivered (a : Addr) (m : RllmMessage)
  | received (a : Addr) (m : RllmMessage)
  deriving Inhabited

/-- The event of a send of `m` from `s` to `d` that returned `e`. -/
def rllmDeliveredEvents (env : RllmEnv) (s d : Addr) (m : RllmMessage) (e : RllmError) :
    List RllmMailEvent :=
  if e = .ok then ((rllmEnqueued env s d m).map (.delivered d)).toList else []

/-- One mailbox call: the environment after it and its events. -/
def rllmMailStep (env : RllmEnv) : RllmMailCall → Option (RllmEnv × List RllmMailEvent)
  | .send s d m => (rllmSendMessage env (some s) (some d) (some m)).map fun r =>
      (r.2.1, rllmDeliveredEvents env s d m r.1)
  | .sendText s d text len => (rllmSendText env (some s) (some d) (some text) len).map fun r =>
      (r.2.1, rllmDeliveredEvents env s d ⟨.text, 0, 0, 0, len, some text⟩ r.1)
  | .sendTokens s d tokens n =>
      (rllmSendTokens env (some s) (some d) (some tokens) n).map fun r =>
        (r.2.1, rllmDeliveredEvents env s d
          ⟨.tokens, 0, 0, 0, n * 4, some (tokens.flatMap (u32Bytes ·.toNat))⟩ r.1)
  | .recv a timeoutMs => (rllmRecvMessage env (some a) timeoutMs).map fun r =>
      (r.2.2, (r.2.1.map (.received a)).toList)
  | .hasMessages a => (rllmHasMessages env (some a)).map fun _ => (env, [])
  | .setOnMessage a set => (env.heap a).map fun _ => (env.modify a fun c => { c with onMessage := set }, [])

/-- A run of mailbox calls, with all their events in order. -/
def rllmMailRun (env : RllmEnv) : List RllmMailCall → Option (RllmEnv × List RllmMailEvent)
  | [] => some (env, [])
  | c :: cs => do
    let (env, evs) ← rllmMailStep env c
    let (env, evs') ← rllmMailRun env cs
    some (env, evs ++ evs')

/-- The message a node received in an event. -/
def RllmMailEvent.receivedAt (d : Addr) : RllmMailEvent → Option RllmMessage
  | .received a m => if a = d then some m else none
  | .delivered _ _ => none

/-- The message delivered to a node in an event. -/
def RllmMailEvent.deliveredAt (d : Addr) : RllmMailEvent → Option RllmMessage
  | .delivered a m => if a = d then some m else none
  | .received _ _ => none

section Fifo
variable {env : RllmEnv} {d : Addr} {t : RllmContext}

/-- The messages received from `d`, and those still pending at `d`, are the messages pending at
`d` before, and those delivered to `d`. -/
def RllmMailFifo (d : Addr) (before after : List RllmMessage) (evs : List RllmMailEvent) : Prop :=
  evs.filterMap (·.receivedAt d) ++ after = before ++ evs.filterMap (·.deliveredAt d)

theorem rllmMailFifo_quiet {before : List RllmMessage} {evs : List RllmMailEvent}
    (hr : ∀ ev ∈ evs, ev.receivedAt d = none) (hd : ∀ ev ∈ evs, ev.deliveredAt d = none) :
    RllmMailFifo d before before evs := by
  rw [RllmMailFifo, List.filterMap_eq_nil_iff.2 hr, List.filterMap_eq_nil_iff.2 hd, List.nil_append,
    List.append_nil]

theorem rllmSend_fifo (hd : env.heap d = some t) (ht : t.MailboxOk) {s d0 : Addr}
    {m : RllmMessage} {r : RllmError × RllmEnv × Option Nat}
    (h : rllmSendMessage env (some s) (some d0) (some m) = some r) :
    ∃ t', r.2.1.heap d = some t' ∧ t'.MailboxOk ∧
      RllmMailFifo d t.pending t'.pending (rllmDeliveredEvents env s d0 m r.1) := by
  obtain ⟨e, env', i⟩ := r
  by_cases hd0 : d = d0
  · subst hd0
    obtain ⟨f, hs⟩ : ∃ f, env.heap s = some f := by
      cases hs : env.heap s
      · simp [rllmSendMessage, hs] at h
      · exact ⟨_, rfl⟩
    rcases rllmSendMessage_spec hs hd ht h with ⟨-, rfl, rfl, -⟩ | ⟨hlt, rfl, m', hm', hheap, -⟩
    · exact ⟨t, hd, ht, by simp [RllmMailFifo, rllmDeliveredEvents]⟩
    · refine ⟨_, by rw [hheap, Function.update_same], ht.push m', ?_⟩
      simp only [RllmMailFifo, rllmDeliveredEvents, hm', Option.map_some', Option.toList_some,
        if_true, List.filterMap_cons, List.filterMap_nil, RllmMailEvent.receivedAt,
        RllmMailEvent.deliveredAt, List.nil_append]
      exact ht.pending_push (by rw [Ne, ht.full_iff]; omega) m'
  · refine ⟨t, by rw [rllmSendMessage_frame h hd0, hd], ht, rllmMailFifo_quiet ?_ ?_⟩ <;>
    · intro ev hev
      simp only [rllmDeliveredEvents] at hev
      split_ifs at hev
      · cases hm : rllmEnqueued env s d0 m <;> simp only [hm, Option.map_none', Option.map_some',
          Option.toList_none, Option.toList_some, List.not_mem_nil, List.mem_singleton] at hev
        subst hev
        simp [RllmMailEvent.receivedAt, RllmMailEvent.deliveredAt, Ne.symm hd0]
      · simp at hev

theorem rllmRecv_fifo (hd : env.heap d = some t) (ht : t.MailboxOk) {a : Addr}
    {timeoutMs : Nat} {r : RllmError × Option RllmMessage × RllmEnv}
    (h : rllmRecvMessage env (some a) timeoutMs = some r) :
    ∃ t', r.2.2.heap d = some t' ∧ t'.MailboxOk ∧
      RllmMailFifo d t.pending t'.pending (r.2.1.map (.received a)).toList := by
  obtain ⟨e, mo, env'⟩ := r
  by_cases ha : a = d
  · subst ha
    rcases rllmRecvMessage_spec hd ht h with ⟨-, -, rfl, rfl⟩ | ⟨m, hm, -, rfl, hheap⟩
    · exact ⟨t, hd, ht, by simp [RllmMailFifo]⟩
    · refine ⟨_, by rw [hheap, Function.update_same], ht.pop, ?_⟩
      have hne : t.queueHead ≠ t.queueTail := ht.has_iff.2 fun h => by simp [h] at hm
      obtain ⟨rest, hrest⟩ : ∃ rest, t.pending = m :: rest := by
        cases hp : t.pending with
        | nil => simp [hp] at hm
        | cons x rest => simp only [hp, List.head?_cons, Option.some.injEq] at hm; exact ⟨rest, hm ▸ rfl⟩
      simp only [RllmMailFifo, Option.map_some', Option.toList_some, List.filterMap_cons,
        List.filterMap_nil, RllmMailEvent.receivedAt, RllmMailEvent.deliveredAt, if_true,
        List.append_nil, (ht.pending_pop hne).1, hrest, List.tail_cons, List.singleton_append]
  · refine ⟨t, by rw [rllmRecvMessage_frame h (Ne.symm ha), hd], ht, rllmMailFifo_quiet ?_ ?_⟩ <;>
    · intro ev hev
      cases mo <;> simp only [Option.map_none', Option.map_some', Option.toList_none,
        Option.toList_some, List.not_mem_nil, List.mem_singleton] at hev
      subst hev
      simp [RllmMailEvent.receivedAt, RllmMailEvent.deliveredAt, ha]

/-- One mailbox call keeps every well-formed ring well-formed, and the node's FIFO equation. -/
theorem rllmMailStep_fifo (hd : env.heap d = some t) (ht : t.MailboxOk) {c : RllmMailCall}
    {env' : RllmEnv} {evs : List RllmMailEvent} (h : rllmMailStep env c = some (env', evs)) :
    ∃ t', env'.heap d = some t' ∧ t'.MailboxOk ∧ RllmMailFifo d t.pending t'.pending evs := by
  cases c with
  | send s d0 m | sendText s d0 m _ | sendTokens s d0 m _ =>
    obtain ⟨r, hr, h⟩ := Option.map_eq_some'.1 h
    cases h
    exact rllmSend_fifo hd ht hr
  | recv a timeoutMs =>
    obtain ⟨r, hr, h⟩ := Option.map_eq_some'.1 h
    cases h
    exact rllmRecv_fifo hd ht hr
  | hasMessages a =>
    obtain ⟨-, -, h⟩ := Option.map_eq_some'.1 h
    cases h
    exact ⟨t, hd, ht, by simp [RllmMailFifo]⟩
  | setOnMessage a set =>
    obtain ⟨-, -, h⟩ := Option.map_eq_some'.1 h
    cases h
    rw [RllmEnv.modify_heap, hd]
    split
    · exact ⟨_, rfl, ⟨ht.1, ht.2, ht.3, ht.4⟩, by simp [RllmMailFifo, RllmContext.pending]⟩
    · exact ⟨t, rfl, ht, by simp [RllmMailFifo]⟩

end Fifo

end TokenEditor
