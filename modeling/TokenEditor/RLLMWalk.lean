import TokenEditor.RLLMWellFormed

/-! The three recursions over the context tree: `rllm_walk_tree`, `rllm_count_descendants` and
`rllm_find_context`. On a finite tree, every path down shorter than the fuel and no node under
two parents, the walk calls the visitor once for each node of the subtree in depth-first
pre-order with its stored depth, the count is the number of those calls less one, and the search
returns the first node of that order the predicate accepts. -/

namespace TokenEditor

/-- Every path down from `a` has fewer than `f` links and runs through allocated nodes. -/
inductive RllmBounded (t : RllmLinks) : Nat → Addr → Prop
  | node {f : Nat} {a : Addr} {l : RllmLink} : t a = some l →
      (∀ c ∈ l.children, RllmBounded t f c) → RllmBounded t (f + 1) a

/-- The subtree of `x` is a finite tree of height below `f`: bounded, no node under two parents,
no child listed twice. -/
structure RllmFiniteTree (t : RllmLinks) (x : Addr) (f : Nat) : Prop where
  bounded : RllmBounded t f x
  unique : ∀ {y z ly lz c}, RllmDesc t x y → RllmDesc t x z → t y = some ly → t z = some lz →
    c ∈ ly.children → c ∈ lz.children → y = z
  nodup : ∀ {y ly}, RllmDesc t x y → t y = some ly → ly.children.Nodup

mutual
/-- `m` lists the subtree of `a` in depth-first pre-order: `a`, then the subtrees of its
children in the order of the children array. -/
inductive RllmPreorder (t : RllmLinks) : Addr → List Addr → Prop
  | node {a : Addr} {l : RllmLink} {m : List Addr} : t a = some l → RllmPreorders t l.children m →
      RllmPreorder t a (a :: m)

/-- `m` lists the subtrees of `cs` one after the other, each in pre-order. -/
inductive RllmPreorders (t : RllmLinks) : List Addr → List Addr → Prop
  | nil : RllmPreorders t [] []
  | cons {c : Addr} {cs m ms : List Addr} : RllmPreorder t c m → RllmPreorders t cs ms →
      RllmPreorders t (c :: cs) (m ++ ms)
end

namespace RllmBounded
variable {t : RllmLinks}

theorem child {f : Nat} {a c : Addr} {l : RllmLink} (h : RllmBounded t f a) (ha : t a = some l)
    (hc : c ∈ l.children) : ∃ g, f = g + 1 ∧ RllmBounded t g c := by
  cases h with
  | node ha' hch =>
    cases ha.symm.trans ha'
    exact ⟨_, rfl, hch c hc⟩

theorem of_desc {f : Nat} {a y : Addr} (h : RllmBounded t f a) (hy : RllmDesc t a y) :
    ∃ g ≤ f, RllmBounded t g y := by
  induction hy with
  | refl => exact ⟨f, le_rfl, h⟩
  | child _ hp hc ih =>
    obtain ⟨g, hg, hb⟩ := ih
    obtain ⟨g', rfl, hc'⟩ := hb.child hp hc
    exact ⟨g', by omega, hc'⟩

/-- No node lies below one of its own children. -/
theorem not_desc_of_child : ∀ {f : Nat} {x c : Addr} {l : RllmLink}, RllmBounded t f x →
    t x = some l → c ∈ l.children → ¬ RllmDesc t c x := by
  intro f
  induction f using Nat.strong_induction_on with
  | _ f ih =>
    intro x c l h hx hc hd
    obtain ⟨g, rfl, hbc⟩ := h.child hx hc
    obtain ⟨g', hg', hbx⟩ := hbc.of_desc hd
    exact ih g' (by omega) hbx hx hc hd

end RllmBounded

namespace RllmFiniteTree
variable {t : RllmLinks} {x : Addr} {f : Nat}

theorem child (h : RllmFiniteTree t x (f + 1)) {lx : RllmLink} {c : Addr} (hx : t x = some lx)
    (hc : c ∈ lx.children) : RllmFiniteTree t c f where
  bounded := by
    obtain ⟨g, hg, hb⟩ := h.bounded.child hx hc
    rwa [Nat.succ.inj hg]
  unique hy hz := h.unique (.of_child hx hc hy) (.of_child hx hc hz)
  nodup hy := h.nodup (.of_child hx hc hy)

/-- The subtrees of two different children do not meet. -/
theorem disjoint (h : RllmFiniteTree t x f) {lx : RllmLink} (hx : t x = some lx) {b1 b2 y : Addr}
    (h1 : b1 ∈ lx.children) (h2 : b2 ∈ lx.children) (hne : b1 ≠ b2) (hy1 : RllmDesc t b1 y)
    (hy2 : RllmDesc t b2 y) : False := by
  have hx1 : RllmDesc t x b1 := .child .refl hx h1
  have hx2 : RllmDesc t x b2 := .child .refl hx h2
  revert hy2
  induction hy1 with
  | refl =>
    intro hy2
    cases hy2 with
    | refl => exact hne rfl
    | child hq hlq hc =>
      obtain rfl := h.unique (hx2.trans hq) .refl hlq hx hc h1
      exact h.bounded.not_desc_of_child hx h2 hq
  | child hp hlp hc ih =>
    intro hy2
    cases hy2 with
    | refl =>
      obtain rfl := h.unique (hx1.trans hp) .refl hlp hx hc h2
      exact h.bounded.not_desc_of_child hx h1 hp
    | child hq hlq hc' =>
      obtain rfl := h.unique (hx1.trans hp) (hx2.trans hq) hlp hlq hc hc'
      exact ih hq

end RllmFiniteTree

/-- The subtrees `rllm_free_context_internal` handles are finite trees: depths grow by one down
each link and stay below the fuel. -/
theorem RllmSubtreeOk.finiteTree {t : RllmLinks} {x : Addr} {f : Nat} (h : RllmSubtreeOk t x f) :
    RllmFiniteTree t x f := by
  obtain ⟨lx, hx⟩ := h.alloc .refl
  have key : ∀ k {y ly}, RllmDesc t x y → t y = some ly →
      ly.depth.toNat + k = lx.depth.toNat + f → RllmBounded t k y := by
    intro k
    induction k with
    | zero => intro y ly hy hly hk; have := h.fuel hy hx hly; omega
    | succ k ih =>
      intro y ly hy hly hk
      refine .node hly fun c hc => ?_
      obtain ⟨lc, hlc⟩ := h.alloc (.child hy hly hc)
      have := h.link hy hly hc hlc
      exact ih (.child hy hly hc) hlc (by omega)
  exact ⟨key f .refl hx rfl, h.unique, h.nodup⟩


/-- The three recursions with `f` rounds from `x` agree on `calls`, the visitor's calls: the
count is their number less one, the search the first accepted node among them; they list the
subtree of `x` in pre-order, once each, with the stored depths. -/
structure RllmWalks (f : Nat) (heap : Addr → Option RllmContext) (x : Addr)
    (calls : List (Addr × BitVec 32)) : Prop where
  walk : rllmWalkTree f heap x = some calls
  count : rllmCountDescendants f heap x = some (calls.length - 1)
  find : ∀ p, rllmFindContext p f heap x = some ((calls.map Prod.fst).find? p)
  preorder : RllmPreorder (rllmLinks heap) x (calls.map Prod.fst)
  depth : ∀ {y d}, (y, d) ∈ calls → ∃ n, heap y = some n ∧ n.depth = d
  nodup : (calls.map Prod.fst).Nodup
  mem : ∀ {y}, y ∈ calls.map Prod.fst ↔ RllmDesc (rllmLinks heap) x y

section
variable {f : Nat} {heap : Addr → Option RllmContext}

/-- The loops over a children array whose subtrees are walked and pairwise disjoint. -/
theorem rllmWalks_children : ∀ {cs : List Addr}, (∀ c ∈ cs, ∃ calls, RllmWalks f heap c calls) →
    cs.Pairwise (fun b1 b2 => ∀ y, RllmDesc (rllmLinks heap) b1 y → ¬ RllmDesc (rllmLinks heap) b2 y) →
    ∃ rest : List (Addr × BitVec 32),
      (∀ acc, cs.foldlM (fun calls c => do pure (calls ++ (← rllmWalkTree f heap c))) acc =
        some (acc ++ rest)) ∧
      (∀ n, cs.foldlM (fun n c => do pure (n + 1 + (← rllmCountDescendants f heap c))) n =
        some (n + rest.length)) ∧
      (∀ p found, cs.foldlM (fun found c => match found with
          | some r => pure (some r)
          | none => rllmFindContext p f heap c) found =
        some (found.or ((rest.map Prod.fst).find? p))) ∧
      RllmPreorders (rllmLinks heap) cs (rest.map Prod.fst) ∧
      (∀ {y d}, (y, d) ∈ rest → ∃ n, heap y = some n ∧ n.depth = d) ∧
      (rest.map Prod.fst).Nodup ∧
      ∀ {y}, y ∈ rest.map Prod.fst ↔ ∃ c ∈ cs, RllmDesc (rllmLinks heap) c y
  | [], _, _ => ⟨[], fun _ => by simp, fun _ => rfl, fun _ found => by cases found <;> rfl,
      .nil, by simp, List.nodup_nil, by simp⟩
  | c :: cs, hch, hdis => by
    obtain ⟨calls, hc⟩ := hch c (List.mem_cons_self _ _)
    obtain ⟨rest, hw, hn, hf, hpre, hd, hnd, hmem⟩ :=
      rllmWalks_children (fun c' h' => hch c' (List.mem_cons_of_mem _ h')) (List.pairwise_cons.mp hdis).2
    have hlen : 0 < calls.length := by
      have := hc.mem.2 .refl
      rw [List.mem_map] at this
      obtain ⟨_, h, _⟩ := this
      exact List.length_pos_of_mem h
    refine ⟨calls ++ rest, fun acc => ?_, fun n => ?_, fun p found => ?_, ?_, ?_, ?_, ?_⟩
    · simp only [List.foldlM_cons, hc.walk]
      exact (hw _).trans (congrArg some (List.append_assoc _ _ _))
    · simp only [List.foldlM_cons, hc.count]
      exact (hn _).trans (congrArg some (by rw [List.length_append]; omega))
    · cases found with
      | some r => exact hf p (some r)
      | none =>
        simp only [List.foldlM_cons, hc.find p]
        exact (hf p _).trans (by rw [List.map_append, List.find?_append, Option.none_or])
    · rw [List.map_append]
      exact .cons hc.preorder hpre
    · intro y d hy
      rcases List.mem_append.mp hy with hy | hy
      · exact hc.depth hy
      · exact hd hy
    · rw [List.map_append, List.nodup_append]
      refine ⟨hc.nodup, hnd, fun y hy1 hy2 => ?_⟩
      obtain ⟨c', hc', hy'⟩ := hmem.1 hy2
      exact (List.pairwise_cons.mp hdis).1 c' hc' y (hc.mem.1 hy1) hy'
    · intro y
      rw [List.map_append, List.mem_append, hc.mem, hmem]
      simp only [List.mem_cons, exists_eq_or_imp]

/-- On a finite tree of height below `f`, the three recursions with `f` rounds agree. -/
theorem rllmWalks_of_finiteTree : ∀ (f : Nat) {heap : Addr → Option RllmContext} {x : Addr},
    RllmFiniteTree (rllmLinks heap) x f → ∃ calls, RllmWalks f heap x calls
  | 0, _, _, h => by cases h.bounded
  | f + 1, heap, x, h => by
    obtain ⟨lx, hx⟩ : ∃ l, rllmLinks heap x = some l := by
      cases h.bounded with
      | node hx _ => exact ⟨_, hx⟩
    obtain ⟨nx, hnx, rfl⟩ := rllmLinks_alloc hx
    obtain ⟨rest, hw, hn, hf, hpre, hd, hnd, hmem⟩ := rllmWalks_children
      (fun c hc => rllmWalks_of_finiteTree f (h.child hx hc))
      ((h.nodup .refl hx).imp_of_mem fun hb1 hb2 hne y hy1 hy2 => h.disjoint hx hb1 hb2 hne hy1 hy2)
    have hmem' : ∀ {y}, y ∈ x :: rest.map Prod.fst ↔ RllmDesc (rllmLinks heap) x y := fun {y} => by
      rw [List.mem_cons, hmem]
      refine ⟨?_, fun hy => ?_⟩
      · rintro (rfl | ⟨c, hc, hy⟩)
        · exact .refl
        · exact .of_child hx hc hy
      · rcases hy.head with rfl | ⟨l, b, hl, hb, hby⟩
        · exact .inl rfl
        · cases hx.symm.trans hl
          exact .inr ⟨b, hb, hby⟩
    refine ⟨(x, nx.depth) :: rest, ⟨?_, ?_, fun p => ?_, .node hx hpre, ?_, ?_, hmem'⟩⟩
    · simp only [rllmWalkTree, hnx, Option.bind_eq_bind, Option.some_bind]
      exact hw _
    · simp only [rllmCountDescendants, hnx, Option.bind_eq_bind, Option.some_bind]
      exact (hn 0).trans (congrArg some (by simp))
    · cases hp : p x
      · simp only [rllmFindContext, hp, Bool.false_eq_true, ↓reduceIte, hnx, Option.bind_eq_bind,
          Option.some_bind]
        exact (hf p none).trans (by simp [hp])
      · simp [rllmFindContext, hp]
    · rintro y d (⟨⟩ | ⟨_, hy⟩)
      · exact ⟨nx, hnx, rfl⟩
      · exact hd hy
    · refine List.nodup_cons.mpr ⟨fun hx' => ?_, hnd⟩
      obtain ⟨c, hc, hcx⟩ := hmem.1 hx'
      exact h.bounded.not_desc_of_child hx hc hcx

end

/-- `rllm_walk_tree` calls the visitor once for each node of a finite subtree, in depth-first
pre-order and with its stored depth; `rllm_count_descendants` counts those calls less one, and
`rllm_find_context` returns the first node of that order the predicate accepts. -/
theorem rllmWalkTree_preorder_agree (heap : Addr → Option RllmContext) (x : Addr) (f : Nat)
    (h : RllmFiniteTree (rllmLinks heap) x f) :
    ∃ calls, rllmWalkTree f heap x = some calls ∧
      RllmPreorder (rllmLinks heap) x (calls.map Prod.fst) ∧ (calls.map Prod.fst).Nodup ∧
      (∀ y, y ∈ calls.map Prod.fst ↔ RllmDesc (rllmLinks heap) x y) ∧
      (∀ y d, (y, d) ∈ calls → ∃ n, heap y = some n ∧ n.depth = d) ∧
      rllmCountDescendants f heap x = some (calls.length - 1) ∧
      ∀ p, rllmFindContext p f heap x = some ((calls.map Prod.fst).find? p) := by
  obtain ⟨calls, hw⟩ := rllmWalks_of_finiteTree f h
  exact ⟨calls, hw.walk, hw.preorder, hw.nodup, fun _ => hw.mem, fun _ _ => hw.depth, hw.count,
    hw.find⟩

variable (M : LlamaModel)

/-- In every reachable environment the three recursions with `max_depth + 1` rounds agree on
the subtree of every live node. -/
theorem RllmReachable.walks {config : RllmEnvConfig} {env : RllmEnv} (hr : RllmReachable M config env)
    {x : Addr} {nx : RllmContext} (hx : env.heap x = some nx) :
    ∃ calls, RllmWalks (env.config.maxDepth.toNat + 1) env.heap x calls :=
  rllmWalks_of_finiteTree _ ((hr.forest M).subtreeOk (rllmLinks_eq_some hx)).finiteTree

/-- A root, a child spawned under it and a peer of the root: the walk from the root visits the
root and then the child, which are exactly its descendants, and counts one descendant; the peer,
linked nowhere, is not visited. -/
theorem rllmWalkTree_preorder_agree_family :
    ∃ env calls, RllmReachable default ⟨8, 64⟩ env ∧ rllmWalkTree 9 env.heap 0 = some calls ∧
      calls.map Prod.fst = [0, 1] ∧ RllmPreorder (rllmLinks env.heap) 0 [0, 1] ∧
      (∀ y, RllmDesc (rllmLinks env.heap) 0 y ↔ y = 0 ∨ y = 1) ∧
      rllmCountDescendants 9 env.heap 0 = some 1 := by
  obtain ⟨env0, env1, env2, env3, h0, h1, h2, h3, r3, -, -, -⟩ := rllmReachable_family
  obtain ⟨n, hx⟩ : ∃ n, env3.heap 0 = some n := by cases h0; cases h1; cases h2; cases h3; exact ⟨_, rfl⟩
  have hfin : RllmFiniteTree (rllmLinks env3.heap) 0 9 := by
    have := ((r3.forest default).subtreeOk (rllmLinks_eq_some hx)).finiteTree
    cases h0; cases h1; cases h2; cases h3
    exact this
  obtain ⟨calls, hw, hpre, -, hmem, -, hcount, -⟩ := rllmWalkTree_preorder_agree env3.heap 0 9 hfin
  have hcalls : calls.map Prod.fst = [0, 1] := by
    have e : (rllmWalkTree 9 env3.heap 0).map (List.map Prod.fst) = some [0, 1] := by
      cases h0; cases h1; cases h2; cases h3; rfl
    rw [hw] at e
    exact Option.some.inj e
  have hlen : calls.length = 2 := by rw [← List.length_map calls Prod.fst, hcalls]; rfl
  refine ⟨env3, calls, r3, hw, hcalls, hcalls ▸ hpre, fun y => ?_, by rw [hcount, hlen]⟩
  rw [← hmem, hcalls]
  simp

end TokenEditor
