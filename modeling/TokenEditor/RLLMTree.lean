import Mathlib.Data.List.Nodup
import TokenEditor.RLLMForest

/-! The context tree as a forest, and what each change the environment makes to it keeps:
linking a fresh node under a parent with room below `max_depth`, listing it as a root, dropping
it, and unlinking a node and freeing its subtree. The forest is stated over every allocated
node, not only the ones the roots reach: a node a failed call left unlinked can still be the
argument of a later call. -/
namespace TokenEditor

/-- The tree `t` with roots `roots`, addresses below `nextAddr` and depth limit `maxDepth` is a
forest: each link goes from an allocated node to an allocated child one level deeper, below
the limit, that names it as parent; no node is under two parents; roots are parentless at
depth 0. A children array is never past its capacity, which is never zero. A parent pointer
names a node with room for a child. -/
structure RllmForest (t : RllmLinks) (roots : List Addr) (nextAddr maxDepth : Nat) : Prop where
  closed : ∀ {p lp c}, t p = some lp → c ∈ lp.children → ∃ lc, t c = some lc
  nodup : ∀ {p lp}, t p = some lp → lp.children.Nodup
  unique : ∀ {p q lp lq c}, t p = some lp → t q = some lq → c ∈ lp.children → c ∈ lq.children →
    p = q
  parent : ∀ {p lp c lc}, t p = some lp → c ∈ lp.children → t c = some lc → lc.parent = some p
  depth : ∀ {p lp c lc}, t p = some lp → c ∈ lp.children → t c = some lc →
    lc.depth.toNat = lp.depth.toNat + 1 ∧ lc.depth.toNat < maxDepth
  capacity : ∀ {p lp}, t p = some lp →
    lp.children.length ≤ lp.childrenCapacity ∧ 0 < lp.childrenCapacity
  depth_lt : ∀ {p lp}, t p = some lp → lp.depth.toNat < max maxDepth 1
  room : ∀ {x lx pp lpp}, t x = some lx → lx.parent = some pp → t pp = some lpp →
    lpp.depth.toNat + 1 < maxDepth
  parent_lt : ∀ {x lx pp}, t x = some lx → lx.parent = some pp → pp < nextAddr
  root : ∀ {r}, r ∈ roots → ∃ lr, t r = some lr ∧ lr.parent = none ∧ lr.depth = 0
  roots_nodup : roots.Nodup
  fresh : ∀ {x}, nextAddr ≤ x → t x = none

/-- Nothing refers to `a`: no children list, no parent pointer, no root. -/
structure RllmNoRef (t : RllmLinks) (roots : List Addr) (a : Addr) : Prop where
  not_child : ∀ {p lp}, t p = some lp → a ∉ lp.children
  not_parent : ∀ {x lx}, t x = some lx → lx.parent ≠ some a
  not_root : a ∉ roots

theorem eq_some_of_update {t : RllmLinks} {a x : Addr} {v : Option RllmLink} {l : RllmLink}
    (h : Function.update t a v x = some l) : (x = a ∧ v = some l) ∨ (x ≠ a ∧ t x = some l) := by
  by_cases hx : x = a
  · subst hx; rw [Function.update_same] at h; exact .inl ⟨rfl, h⟩
  · rw [Function.update_noteq hx] at h; exact .inr ⟨hx, h⟩

/-- The parent's side of `rllm_add_child`: `a` appended, the capacity possibly doubled. -/
def RllmLink.addChild (l : RllmLink) (a : Addr) (cap : Nat) : RllmLink :=
  { l with children := l.children ++ [a], childrenCapacity := cap }

namespace RllmForest
variable {t : RllmLinks} {roots : List Addr} {n D : Nat}

/-- A forest's subtrees are what `rllm_free_context_internal` with `D + 1` rounds needs. -/
theorem subtreeOk (h : RllmForest t roots n D) {x : Addr} {lx : RllmLink} (hx : t x = some lx) :
    RllmSubtreeOk t x (D + 1) := by
  have alloc : ∀ {y}, RllmDesc t x y → ∃ l, t y = some l := fun hy => by
    induction hy with
    | refl => exact ⟨lx, hx⟩
    | child _ hp hc _ => exact h.closed hp hc
  refine ⟨alloc, fun _ hly hc hlc => (h.depth hly hc hlc).1, fun _ _ => h.unique,
    fun _ => h.nodup, fun {y lx' ly} _ hlx hly => ?_⟩
  have := h.depth_lt hly
  omega

theorem mono {n' : Nat} (h : RllmForest t roots n D) (hn : n ≤ n') : RllmForest t roots n' D :=
  { h with
    parent_lt := fun hx hp => lt_of_lt_of_le (h.parent_lt hx hp) hn
    fresh := fun hx => h.fresh (le_trans hn hx) }

/-- A fresh address is referred to by nothing. -/
theorem noRef_fresh (h : RllmForest t roots n D) : RllmNoRef t roots n where
  not_child hp hc := by
    obtain ⟨lc, hlc⟩ := h.closed hp hc
    rw [h.fresh le_rfl] at hlc
    cases hlc
  not_parent hx hp := absurd (h.parent_lt hx hp) (lt_irrefl n)
  not_root hr := by
    obtain ⟨lr, hlr, -⟩ := h.root hr
    rw [h.fresh le_rfl] at hlr
    cases hlr

section Fresh
variable {a : Addr} (h : RllmForest t roots n D) (hr : RllmNoRef t roots a)
include h hr

/-- Giving an address nothing refers to a childless node keeps the forest, and nothing refers
to it afterwards. -/
theorem update_noRef {l : RllmLink} (ha : a < n) (hc : l.children = [])
    (hk : 0 < l.childrenCapacity) (hd : l.depth.toNat < max D 1) (hne : l.parent ≠ some a)
    (hroom : ∀ {pp lpp}, l.parent = some pp → t pp = some lpp → lpp.depth.toNat + 1 < D)
    (hlt : ∀ {pp}, l.parent = some pp → pp < n) :
    RllmForest (Function.update t a (some l)) roots n D ∧
      RllmNoRef (Function.update t a (some l)) roots a := by
  have old : ∀ {x lx}, x ≠ a → Function.update t a (some l) x = some lx → t x = some lx :=
    fun hx h' => by rwa [Function.update_noteq hx] at h'
  have keep : ∀ {x lx}, t x = some lx → x ≠ a → Function.update t a (some l) x = some lx :=
    fun h' hx => by rwa [Function.update_noteq hx]
  have nochild : ∀ {p lp c}, Function.update t a (some l) p = some lp → c ∈ lp.children →
      p ≠ a ∧ t p = some lp := fun {p lp c} hp hc' => by
    rcases eq_some_of_update hp with ⟨rfl, he⟩ | ⟨hpa, hp⟩
    · cases he; rw [hc] at hc'; cases hc'
    · exact ⟨hpa, hp⟩
  have ne_of_child : ∀ {p lp c}, t p = some lp → c ∈ lp.children → c ≠ a :=
    fun hp hc' he => hr.not_child hp (he ▸ hc')
  refine ⟨⟨fun hp hc' => ?_, fun hp => ?_, fun hp hq hcp hcq => ?_, fun hp hc' hlc => ?_,
    fun hp hc' hlc => ?_, fun hp => ?_, fun hp => ?_, fun hx hpar hpp => ?_, fun hx hpar => ?_,
    fun hr' => ?_, h.roots_nodup, fun {x} hx => ?_⟩, ⟨fun hp hc' => ?_, fun hx => ?_, hr.not_root⟩⟩
  · obtain ⟨-, hp⟩ := nochild hp hc'
    obtain ⟨lc, hlc⟩ := h.closed hp hc'
    exact ⟨lc, keep hlc (ne_of_child hp hc')⟩
  · rcases eq_some_of_update hp with ⟨rfl, he⟩ | ⟨-, hp⟩
    · cases he; rw [hc]; exact List.nodup_nil
    · exact h.nodup hp
  · exact h.unique (nochild hp hcp).2 (nochild hq hcq).2 hcp hcq
  · obtain ⟨-, hp⟩ := nochild hp hc'
    exact h.parent hp hc' (old (ne_of_child hp hc') hlc)
  · obtain ⟨-, hp⟩ := nochild hp hc'
    exact h.depth hp hc' (old (ne_of_child hp hc') hlc)
  · rcases eq_some_of_update hp with ⟨rfl, he⟩ | ⟨-, hp⟩
    · cases he; rw [hc]; exact ⟨Nat.zero_le _, hk⟩
    · exact h.capacity hp
  · rcases eq_some_of_update hp with ⟨rfl, he⟩ | ⟨-, hp⟩
    · cases he; exact hd
    · exact h.depth_lt hp
  · rcases eq_some_of_update hx with ⟨rfl, he⟩ | ⟨-, hx⟩
    · cases he
      exact hroom hpar (old (fun he' => hne (he' ▸ hpar)) hpp)
    · exact h.room hx hpar (old (fun he' => hr.not_parent hx (he' ▸ hpar)) hpp)
  · rcases eq_some_of_update hx with ⟨rfl, he⟩ | ⟨-, hx⟩
    · cases he; exact hlt hpar
    · exact h.parent_lt hx hpar
  · obtain ⟨lr, hlr, hpr, hdr⟩ := h.root hr'
    exact ⟨lr, keep hlr fun he => hr.not_root (he ▸ hr'), hpr, hdr⟩
  · rw [Function.update_noteq (Nat.lt_of_lt_of_le ha hx).ne']; exact h.fresh hx
  · exact hr.not_child (nochild hp hc').2 hc'
  · rcases eq_some_of_update hx with ⟨rfl, he⟩ | ⟨-, hx⟩
    · cases he; exact hne
    · exact hr.not_parent hx

/-- Freeing a node nothing refers to keeps the forest. -/
theorem erase_noRef : RllmForest (Function.update t a none) roots n D := by
  have old : ∀ {x lx}, Function.update t a none x = some lx → x ≠ a ∧ t x = some lx :=
    fun {x lx} h' => by
      rcases eq_some_of_update h' with ⟨-, he⟩ | h'
      · cases he
      · exact h'
  have keep : ∀ {x lx}, t x = some lx → x ≠ a → Function.update t a none x = some lx :=
    fun h' hx => by rwa [Function.update_noteq hx]
  refine ⟨fun hp hc => ?_, fun hp => h.nodup (old hp).2, fun hp hq => h.unique (old hp).2 (old hq).2,
    fun hp hc hlc => h.parent (old hp).2 hc (old hlc).2,
    fun hp hc hlc => h.depth (old hp).2 hc (old hlc).2, fun hp => h.capacity (old hp).2,
    fun hp => h.depth_lt (old hp).2, fun hx hpar hpp => h.room (old hx).2 hpar (old hpp).2,
    fun hx => h.parent_lt (old hx).2, fun hr' => ?_, h.roots_nodup, fun {x} hx => ?_⟩
  · obtain ⟨lc, hlc⟩ := h.closed (old hp).2 hc
    exact ⟨lc, keep hlc fun he => hr.not_child (old hp).2 (he ▸ hc)⟩
  · obtain ⟨lr, hlr, hpr, hdr⟩ := h.root hr'
    exact ⟨lr, keep hlr fun he => hr.not_root (he ▸ hr'), hpr, hdr⟩
  · by_cases hxa : x = a
    · subst hxa; exact Function.update_same _ _ _
    · rw [Function.update_noteq hxa]; exact h.fresh hx

/-- Listing as a root a parentless node at depth 0 that nothing refers to keeps the forest. -/
theorem addRoot {la : RllmLink} (ha : t a = some la) (hp : la.parent = none) (hd : la.depth = 0) :
    RllmForest t (roots ++ [a]) n D :=
  { h with
    root := fun hr' => by
      rcases List.mem_append.mp hr' with hr' | hr'
      · exact h.root hr'
      · rw [List.mem_singleton.mp hr']; exact ⟨la, ha, hp, hd⟩
    roots_nodup := List.nodup_append.mpr ⟨h.roots_nodup, List.nodup_singleton a,
      fun x hx hx' => hr.not_root (List.mem_singleton.mp hx' ▸ hx)⟩ }

end Fresh

theorem lt_of_some (h : RllmForest t roots n D) {x : Addr} {lx : RllmLink} (hx : t x = some lx) :
    x < n :=
  Nat.lt_of_not_le fun hn => by rw [h.fresh hn] at hx; cases hx

/-- Appending an unreferenced node `a` to the children of `pa`, when `a` already names `pa`
as its parent and sits one level below it, keeps the forest. -/
theorem linkChild {pa a : Addr} {lp la : RllmLink} {cap : Nat} (h : RllmForest t roots n D)
    (hr : RllmNoRef t roots a) (hpa : t pa = some lp) (hla : t a = some la)
    (hpar : la.parent = some pa) (hdep : la.depth.toNat = lp.depth.toNat + 1) (hD : la.depth.toNat < D)
    (hcap : lp.children.length + 1 ≤ cap) :
    RllmForest (Function.update t pa (some (lp.addChild a cap))) roots n D := by
  have hne : a ≠ pa := fun he => hr.not_parent hla (he ▸ hpar)
  have pd : ∀ {x lx}, Function.update t pa (some (lp.addChild a cap)) x = some lx →
      ∃ l0, t x = some l0 ∧ lx.parent = l0.parent ∧ lx.depth = l0.depth := fun {x lx} hx => by
    rcases eq_some_of_update hx with ⟨rfl, he⟩ | ⟨-, hx⟩
    · cases he; exact ⟨lp, hpa, rfl, rfl⟩
    · exact ⟨lx, hx, rfl, rfl⟩
  have keep : ∀ {x lx}, t x = some lx →
      ∃ l', Function.update t pa (some (lp.addChild a cap)) x = some l' := fun {x lx} hx => by
    by_cases hxp : x = pa
    · subst hxp; exact ⟨_, Function.update_same _ _ _⟩
    · exact ⟨lx, by rw [Function.update_noteq hxp, hx]⟩
  have kids : ∀ {x lx c}, Function.update t pa (some (lp.addChild a cap)) x = some lx →
      c ∈ lx.children →
      (x = pa ∧ c = a) ∨ ∃ l0, t x = some l0 ∧ c ∈ l0.children := fun {x lx c} hx hc => by
    rcases eq_some_of_update hx with ⟨rfl, he⟩ | ⟨-, hx⟩
    · cases he
      rcases List.mem_append.mp hc with hc | hc
      · exact .inr ⟨lp, hpa, hc⟩
      · exact .inl ⟨rfl, List.mem_singleton.mp hc⟩
    · exact .inr ⟨lx, hx, hc⟩
  refine ⟨fun hp hc => ?_, fun {p lq} hp => ?_, fun hp hq hcp hcq => ?_, fun hp hc hlc => ?_,
    fun hp hc hlc => ?_, fun {p lq} hp => ?_, fun hp => ?_, fun hx hpar' hpp => ?_,
    fun hx hpar' => ?_, fun hr' => ?_, h.roots_nodup, fun {x} hx => ?_⟩
  · rcases kids hp hc with ⟨-, rfl⟩ | ⟨l0, hp, hc⟩
    · exact keep hla
    · obtain ⟨lc, hlc⟩ := h.closed hp hc
      exact keep hlc
  · rcases eq_some_of_update hp with ⟨rfl, he⟩ | ⟨-, hp⟩
    · cases he
      exact List.nodup_append.mpr ⟨h.nodup hpa, List.nodup_singleton a,
        fun x hx hx' => hr.not_child hpa (List.mem_singleton.mp hx' ▸ hx)⟩
    · exact h.nodup hp
  · rcases kids hp hcp with ⟨rfl, hc1⟩ | ⟨l1, hp', hcp'⟩ <;>
      rcases kids hq hcq with ⟨rfl, hc2⟩ | ⟨l2, hq', hcq'⟩
    · rfl
    · exact absurd (hc1 ▸ hcq') (hr.not_child hq')
    · exact absurd (hc2 ▸ hcp') (hr.not_child hp')
    · exact h.unique hp' hq' hcp' hcq'
  · obtain ⟨lc0, hlc0, hpc, -⟩ := pd hlc
    rcases kids hp hc with ⟨rfl, rfl⟩ | ⟨l0, hp, hc⟩
    · cases hla.symm.trans hlc0
      rw [hpc, hpar]
    · rw [hpc]; exact h.parent hp hc hlc0
  · obtain ⟨lc0, hlc0, -, hdc⟩ := pd hlc
    obtain ⟨lp0, hlp0, -, hdp⟩ := pd hp
    rw [hdc, hdp]
    rcases kids hp hc with ⟨rfl, rfl⟩ | ⟨l0, hp', hc⟩
    · cases hpa.symm.trans hlp0
      cases hla.symm.trans hlc0
      exact ⟨hdep, hD⟩
    · cases hp'.symm.trans hlp0
      exact h.depth hp' hc hlc0
  · rcases eq_some_of_update hp with ⟨rfl, he⟩ | ⟨-, hp⟩
    · cases he
      simp only [RllmLink.addChild, List.length_append, List.length_singleton]
      exact ⟨hcap, by omega⟩
    · exact h.capacity hp
  · obtain ⟨l0, hl0, -, hd0⟩ := pd hp
    rw [hd0]; exact h.depth_lt hl0
  · obtain ⟨lx0, hlx0, hpx, -⟩ := pd hx
    obtain ⟨lpp0, hlpp0, -, hdpp⟩ := pd hpp
    rw [hdpp]; exact h.room hlx0 (hpx ▸ hpar') hlpp0
  · obtain ⟨lx0, hlx0, hpx, -⟩ := pd hx
    exact h.parent_lt hlx0 (hpx ▸ hpar')
  · obtain ⟨lr, hlr, hpr, hdr⟩ := h.root hr'
    obtain ⟨lr', hlr'⟩ := keep hlr
    obtain ⟨l0, hl0, hp0, hd0⟩ := pd hlr'
    cases hlr.symm.trans hl0
    exact ⟨lr', hlr', hp0.trans hpr, hd0.trans hdr⟩
  · rw [Function.update_noteq (Nat.lt_of_lt_of_le (h.lt_of_some hpa) hx).ne']
    exact h.fresh hx

/-- The parent's side of `rllm_remove_child`: dropping a child keeps the forest. -/
theorem unlinkChild {pa a : Addr} {lp : RllmLink} (h : RllmForest t roots n D)
    (hpa : t pa = some lp) :
    RllmForest (Function.update t pa (some { lp with children := lp.children.erase a })) roots n D := by
  have pd : ∀ {x lx}, Function.update t pa (some { lp with children := lp.children.erase a }) x =
      some lx → ∃ l0, t x = some l0 ∧ lx.parent = l0.parent ∧ lx.depth = l0.depth ∧
        lx.childrenCapacity = l0.childrenCapacity ∧ lx.children.Sublist l0.children :=
    fun {x lx} hx => by
      rcases eq_some_of_update hx with ⟨rfl, he⟩ | ⟨-, hx⟩
      · cases he; exact ⟨lp, hpa, rfl, rfl, rfl, List.erase_sublist _ _⟩
      · exact ⟨lx, hx, rfl, rfl, rfl, List.Sublist.refl _⟩
  have keep : ∀ {x lx}, t x = some lx → ∃ l', Function.update t pa
      (some { lp with children := lp.children.erase a }) x = some l' := fun {x lx} hx => by
    by_cases hxp : x = pa
    · subst hxp; exact ⟨_, Function.update_same _ _ _⟩
    · exact ⟨lx, by rw [Function.update_noteq hxp, hx]⟩
  refine ⟨fun hp hc => ?_, fun hp => ?_, fun hp hq hcp hcq => ?_, fun hp hc hlc => ?_,
    fun hp hc hlc => ?_, fun hp => ?_, fun hp => ?_, fun hx hpar hpp => ?_, fun hx hpar => ?_,
    fun hr' => ?_, h.roots_nodup, fun {x} hx => ?_⟩
  · obtain ⟨l0, hl0, -, -, -, hs⟩ := pd hp
    obtain ⟨lc, hlc⟩ := h.closed hl0 (hs.subset hc)
    exact keep hlc
  · obtain ⟨l0, hl0, -, -, -, hs⟩ := pd hp
    exact (h.nodup hl0).sublist hs
  · obtain ⟨l1, hl1, -, -, -, hs1⟩ := pd hp
    obtain ⟨l2, hl2, -, -, -, hs2⟩ := pd hq
    exact h.unique hl1 hl2 (hs1.subset hcp) (hs2.subset hcq)
  · obtain ⟨l0, hl0, -, -, -, hs⟩ := pd hp
    obtain ⟨lc0, hlc0, hpc, -⟩ := pd hlc
    rw [hpc]; exact h.parent hl0 (hs.subset hc) hlc0
  · obtain ⟨l0, hl0, -, hd0, -, hs⟩ := pd hp
    obtain ⟨lc0, hlc0, -, hdc, -⟩ := pd hlc
    rw [hdc, hd0]; exact h.depth hl0 (hs.subset hc) hlc0
  · obtain ⟨l0, hl0, -, -, hc0, hs⟩ := pd hp
    rw [hc0]; exact ⟨le_trans hs.length_le (h.capacity hl0).1, (h.capacity hl0).2⟩
  · obtain ⟨l0, hl0, -, hd0, -⟩ := pd hp
    rw [hd0]; exact h.depth_lt hl0
  · obtain ⟨lx0, hlx0, hpx, -⟩ := pd hx
    obtain ⟨lpp0, hlpp0, -, hdpp, -⟩ := pd hpp
    rw [hdpp]; exact h.room hlx0 (hpx ▸ hpar) hlpp0
  · obtain ⟨lx0, hlx0, hpx, -⟩ := pd hx
    exact h.parent_lt hlx0 (hpx ▸ hpar)
  · obtain ⟨lr, hlr, hpr, hdr⟩ := h.root hr'
    obtain ⟨lr', hlr'⟩ := keep hlr
    obtain ⟨l0, hl0, hp0, hd0, -⟩ := pd hlr'
    cases hlr.symm.trans hl0
    exact ⟨lr', hlr', hp0.trans hpr, hd0.trans hdr⟩
  · rw [Function.update_noteq (Nat.lt_of_lt_of_le (h.lt_of_some hpa) hx).ne']
    exact h.fresh hx

/-- The child's side of `rllm_remove_child`: a node no children list holds may lose its
parent pointer. -/
theorem clearParent {a : Addr} {la : RllmLink} (h : RllmForest t roots n D) (ha : t a = some la)
    (hu : ∀ {p lp}, t p = some lp → a ∉ lp.children) :
    RllmForest (Function.update t a (some { la with parent := none })) roots n D := by
  have pd : ∀ {x lx}, Function.update t a (some { la with parent := none }) x = some lx →
      ∃ l0, t x = some l0 ∧ lx.children = l0.children ∧ lx.depth = l0.depth ∧
        lx.childrenCapacity = l0.childrenCapacity ∧ (x ≠ a → lx = l0) ∧ (x = a → lx.parent = none) :=
    fun {x lx} hx => by
      rcases eq_some_of_update hx with ⟨rfl, he⟩ | ⟨hxa, hx⟩
      · cases he; exact ⟨la, ha, rfl, rfl, rfl, fun h' => absurd rfl h', fun _ => rfl⟩
      · exact ⟨lx, hx, rfl, rfl, rfl, fun _ => rfl, fun h' => absurd h' hxa⟩
  have keep : ∀ {x lx}, t x = some lx → ∃ l', Function.update t a
      (some { la with parent := none }) x = some l' := fun {x lx} hx => by
    by_cases hxa : x = a
    · subst hxa; exact ⟨_, Function.update_same _ _ _⟩
    · exact ⟨lx, by rw [Function.update_noteq hxa, hx]⟩
  have ne_of_child : ∀ {p lp c}, t p = some lp → c ∈ lp.children → c ≠ a :=
    fun hp hc he => hu hp (he ▸ hc)
  refine ⟨fun hp hc => ?_, fun hp => ?_, fun hp hq hcp hcq => ?_, fun hp hc hlc => ?_,
    fun hp hc hlc => ?_, fun hp => ?_, fun hp => ?_, fun {x lx pp lpp} hx hpar hpp => ?_,
    fun {x lx pp} hx hpar => ?_, fun {r} hr' => ?_, h.roots_nodup, fun {x} hx => ?_⟩
  · obtain ⟨l0, hl0, hc0, -⟩ := pd hp
    obtain ⟨lc, hlc⟩ := h.closed hl0 (hc0 ▸ hc)
    exact keep hlc
  · obtain ⟨l0, hl0, hc0, -⟩ := pd hp
    rw [hc0]; exact h.nodup hl0
  · obtain ⟨l1, hl1, hc1, -⟩ := pd hp
    obtain ⟨l2, hl2, hc2, -⟩ := pd hq
    exact h.unique hl1 hl2 (hc1 ▸ hcp) (hc2 ▸ hcq)
  · obtain ⟨l0, hl0, hc0, -⟩ := pd hp
    obtain ⟨lc0, hlc0, -, -, -, he, -⟩ := pd hlc
    rw [he (ne_of_child hl0 (hc0 ▸ hc))]; exact h.parent hl0 (hc0 ▸ hc) hlc0
  · obtain ⟨l0, hl0, hc0, hd0, -⟩ := pd hp
    obtain ⟨lc0, hlc0, -, hdc, -⟩ := pd hlc
    rw [hdc, hd0]; exact h.depth hl0 (hc0 ▸ hc) hlc0
  · obtain ⟨l0, hl0, hc0, -, hk0, -⟩ := pd hp
    rw [hc0, hk0]; exact h.capacity hl0
  · obtain ⟨l0, hl0, -, hd0, -⟩ := pd hp
    rw [hd0]; exact h.depth_lt hl0
  · obtain ⟨lx0, hlx0, -, -, -, he, hn⟩ := pd hx
    by_cases hxa : x = a
    · rw [hn hxa] at hpar; cases hpar
    · obtain ⟨lpp0, hlpp0, -, hdpp, -⟩ := pd hpp
      rw [hdpp]; exact h.room hlx0 (he hxa ▸ hpar) hlpp0
  · obtain ⟨lx0, hlx0, -, -, -, he, hn⟩ := pd hx
    by_cases hxa : x = a
    · rw [hn hxa] at hpar; cases hpar
    · exact h.parent_lt hlx0 (he hxa ▸ hpar)
  · obtain ⟨lr, hlr, hpr, hdr⟩ := h.root hr'
    obtain ⟨lr', hlr'⟩ := keep hlr
    obtain ⟨l0, hl0, -, hd0, -, he, hn⟩ := pd hlr'
    cases hlr.symm.trans hl0
    refine ⟨lr', hlr', ?_, hd0.trans hdr⟩
    by_cases hra : r = a
    · exact hn hra
    · rw [he hra]; exact hpr
  · rw [Function.update_noteq (Nat.lt_of_lt_of_le (h.lt_of_some ha) hx).ne']
    exact h.fresh hx

theorem eraseRoot (h : RllmForest t roots n D) (a : Addr) : RllmForest t (roots.erase a) n D :=
  { h with
    root := fun hr' => h.root (List.mem_of_mem_erase hr')
    roots_nodup := h.roots_nodup.erase a }

/-- Freeing the subtree of a node that is no child and no root keeps the forest. -/
theorem freeSubtree {a : Addr} {t' : RllmLinks} (h : RllmForest t roots n D)
    (hu : ∀ {p lp}, t p = some lp → a ∉ lp.children) (hroot : a ∉ roots)
    (hd : ∀ y, RllmDesc t a y → t' y = none) (hk : ∀ y, ¬ RllmDesc t a y → t' y = t y) :
    RllmForest t' roots n D := by
  have alive : ∀ {x lx}, t' x = some lx → ¬ RllmDesc t a x ∧ t x = some lx := fun {x lx} hx => by
    by_cases hdx : RllmDesc t a x
    · rw [hd x hdx] at hx; cases hx
    · exact ⟨hdx, by rw [← hk x hdx, hx]⟩
  have out : ∀ {p lp c}, ¬ RllmDesc t a p → t p = some lp → c ∈ lp.children → ¬ RllmDesc t a c :=
    fun {p lp c} hp hlp hc hdc => by
      cases hdc with
      | refl => exact hu hlp hc
      | child hq hlq hcq => exact hp (h.unique hlp hlq hc hcq ▸ hq)
  refine ⟨fun hp hc => ?_, fun hp => h.nodup (alive hp).2,
    fun hp hq => h.unique (alive hp).2 (alive hq).2,
    fun hp hc hlc => h.parent (alive hp).2 hc (alive hlc).2,
    fun hp hc hlc => h.depth (alive hp).2 hc (alive hlc).2, fun hp => h.capacity (alive hp).2,
    fun hp => h.depth_lt (alive hp).2, fun hx hpar hpp => h.room (alive hx).2 hpar (alive hpp).2,
    fun hx => h.parent_lt (alive hx).2, fun {r} hr' => ?_, h.roots_nodup, fun {x} hx => ?_⟩
  · obtain ⟨hdp, hlp⟩ := alive hp
    obtain ⟨lc, hlc⟩ := h.closed hlp hc
    exact ⟨lc, by rw [hk _ (out hdp hlp hc), hlc]⟩
  · obtain ⟨lr, hlr, hpr, hdr⟩ := h.root hr'
    refine ⟨lr, ?_, hpr, hdr⟩
    rw [hk r fun hdr' => ?_, hlr]
    cases hdr' with
    | refl => exact hroot hr'
    | child _ hlq hcq => rw [h.parent hlq hcq hlr] at hpr; cases hpr
  · by_cases hdx : RllmDesc t a x
    · exact hd x hdx
    · rw [hk x hdx]; exact h.fresh hx

end RllmForest

end TokenEditor
