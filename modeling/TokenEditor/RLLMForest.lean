import TokenEditor.RLLMMachine

/-! The shape of the context tree: each node's parent, children, children capacity and depth,
read off the heap. `rllm_free_context_internal` removes exactly the subtree of its argument
from the heap, provided the subtree is a finite tree: its nodes allocated, each link one level
deeper, no node under two parents, and the depths below the fuel. -/
namespace TokenEditor

/-- The fields of a node that shape the tree. -/
structure RllmLink where
  parent : Option Addr
  children : List Addr
  childrenCapacity : Nat
  depth : BitVec 32
  deriving DecidableEq, Repr

def RllmContext.link (c : RllmContext) : RllmLink :=
  ⟨c.parent, c.children, c.childrenCapacity, c.depth⟩

abbrev RllmLinks := Addr → Option RllmLink

/-- The tree the heap holds. -/
def rllmLinks (heap : Addr → Option RllmContext) : RllmLinks := fun a => (heap a).map RllmContext.link

theorem rllmLinks_update (heap : Addr → Option RllmContext) (a : Addr) (v : Option RllmContext) :
    rllmLinks (Function.update heap a v) = Function.update (rllmLinks heap) a (v.map RllmContext.link) := by
  funext x
  by_cases h : x = a
  · subst h; simp [rllmLinks]
  · simp [rllmLinks, Function.update_noteq h]

theorem rllmLinks_eq_some {heap : Addr → Option RllmContext} {a : Addr} {n : RllmContext}
    (h : heap a = some n) : rllmLinks heap a = some n.link := by
  simp [rllmLinks, h]

theorem rllmLinks_alloc {heap : Addr → Option RllmContext} {a : Addr} {l : RllmLink}
    (h : rllmLinks heap a = some l) : ∃ n, heap a = some n ∧ n.link = l := by
  simpa only [rllmLinks, Option.map_eq_some'] using h

/-- `c` is `a` or lies below it through the children of allocated nodes. -/
inductive RllmDesc (t : RllmLinks) (a : Addr) : Addr → Prop
  | refl : RllmDesc t a a
  | child {p c : Addr} {l : RllmLink} : RllmDesc t a p → t p = some l → c ∈ l.children →
      RllmDesc t a c

namespace RllmDesc
variable {t : RllmLinks}

theorem trans {a b c : Addr} (h1 : RllmDesc t a b) (h2 : RllmDesc t b c) : RllmDesc t a c := by
  induction h2 with
  | refl => exact h1
  | child _ hp hc ih => exact .child ih hp hc

theorem of_child {a b c : Addr} {l : RllmLink} (ha : t a = some l) (hb : b ∈ l.children)
    (h : RllmDesc t b c) : RllmDesc t a c :=
  trans (.child .refl ha hb) h

/-- A node below `a` other than `a` lies below one of `a`'s children. -/
theorem head {a c : Addr} (h : RllmDesc t a c) :
    c = a ∨ ∃ l b, t a = some l ∧ b ∈ l.children ∧ RllmDesc t b c := by
  induction h with
  | refl => exact .inl rfl
  | child _ hp hc ih =>
    rcases ih with rfl | ⟨l, b, ha, hb, hd⟩
    · exact .inr ⟨_, _, hp, hc, .refl⟩
    · exact .inr ⟨l, b, ha, hb, .child hd hp hc⟩

/-- The subtree of `a` only depends on the tree inside it. -/
theorem congr {t' : RllmLinks} {a c : Addr} (ht : ∀ y, RllmDesc t a y → t' y = t y)
    (h : RllmDesc t' a c) : RllmDesc t a c := by
  induction h with
  | refl => exact .refl
  | child _ hp hc ih => exact .child ih (by rw [← ht _ ih, hp]) hc

theorem congr' {t' : RllmLinks} {a c : Addr} (ht : ∀ y, RllmDesc t a y → t' y = t y)
    (h : RllmDesc t a c) : RllmDesc t' a c := by
  induction h with
  | refl => exact .refl
  | child hd hp hc ih => exact .child ih (by rw [ht _ hd, hp]) hc

end RllmDesc

/-- What `rllm_free_context_internal` with `fuel` rounds needs of the subtree of `x`: its
nodes allocated, each link one level deeper, no node under two parents, no child listed twice,
and every depth less than `fuel` below `x`. -/
structure RllmSubtreeOk (t : RllmLinks) (x : Addr) (fuel : Nat) : Prop where
  alloc : ∀ {y}, RllmDesc t x y → ∃ l, t y = some l
  link : ∀ {y ly c lc}, RllmDesc t x y → t y = some ly → c ∈ ly.children → t c = some lc →
    lc.depth.toNat = ly.depth.toNat + 1
  unique : ∀ {y z ly lz c}, RllmDesc t x y → RllmDesc t x z → t y = some ly → t z = some lz →
    c ∈ ly.children → c ∈ lz.children → y = z
  nodup : ∀ {y ly}, RllmDesc t x y → t y = some ly → ly.children.Nodup
  fuel : ∀ {y lx ly}, RllmDesc t x y → t x = some lx → t y = some ly →
    ly.depth.toNat < lx.depth.toNat + fuel

namespace RllmSubtreeOk
variable {t : RllmLinks} {x : Addr} {f : Nat}

/-- Depths grow strictly down the subtree. -/
theorem depth_mono (h : RllmSubtreeOk t x f) {b y : Addr} {lb ly : RllmLink}
    (hb : RllmDesc t x b) (hy : RllmDesc t b y) (hlb : t b = some lb) (hly : t y = some ly) :
    lb.depth.toNat ≤ ly.depth.toNat ∧ (y ≠ b → lb.depth.toNat < ly.depth.toNat) := by
  induction hy generalizing ly with
  | refl =>
    cases hlb.symm.trans hly
    exact ⟨le_rfl, fun h => absurd rfl h⟩
  | child hp hlp hc ih =>
    have := h.link (hb.trans hp) hlp hc hly
    have := (ih hlp).1
    exact ⟨by omega, fun _ => by omega⟩

theorem child (h : RllmSubtreeOk t x (f + 1)) {lx : RllmLink} {c : Addr} (hx : t x = some lx)
    (hc : c ∈ lx.children) : RllmSubtreeOk t c f where
  alloc hy := h.alloc (.of_child hx hc hy)
  link hy := h.link (.of_child hx hc hy)
  unique hy hz := h.unique (.of_child hx hc hy) (.of_child hx hc hz)
  nodup hy := h.nodup (.of_child hx hc hy)
  fuel hy hlc hly := by
    have := h.fuel (.of_child hx hc hy) hx hly
    have := h.link .refl hx hc hlc
    omega

theorem congr {t' : RllmLinks} (h : RllmSubtreeOk t x f) (ht : ∀ y, RllmDesc t x y → t' y = t y) :
    RllmSubtreeOk t' x f where
  alloc hy := by rw [ht _ (hy.congr ht)]; exact h.alloc (hy.congr ht)
  link hy hly hc hlc := by
    have hy' := hy.congr ht
    rw [ht _ hy'] at hly
    exact h.link hy' hly hc (by rwa [← ht _ (.child hy' hly hc)])
  unique hy hz hly hlz := by
    rw [ht _ (hy.congr ht)] at hly
    rw [ht _ (hz.congr ht)] at hlz
    exact h.unique (hy.congr ht) (hz.congr ht) hly hlz
  nodup hy hly := by
    rw [ht _ (hy.congr ht)] at hly
    exact h.nodup (hy.congr ht) hly
  fuel hy hlx hly := by
    rw [ht _ .refl] at hlx
    rw [ht _ (hy.congr ht)] at hly
    exact h.fuel (hy.congr ht) hlx hly

/-- The subtrees of two different children do not meet. -/
theorem disjoint (h : RllmSubtreeOk t x f) {lx : RllmLink} (hx : t x = some lx) {b1 b2 y : Addr}
    (h1 : b1 ∈ lx.children) (h2 : b2 ∈ lx.children) (hne : b1 ≠ b2) (hy1 : RllmDesc t b1 y)
    (hy2 : RllmDesc t b2 y) : False := by
  have hx1 : RllmDesc t x b1 := .child .refl hx h1
  have hx2 : RllmDesc t x b2 := .child .refl hx h2
  revert hy2
  induction hy1 with
  | refl =>
    intro hy2
    obtain ⟨l1, hl1⟩ := h.alloc hx1
    obtain ⟨l2, hl2⟩ := h.alloc hx2
    have := h.link .refl hx h1 hl1
    have := h.link .refl hx h2 hl2
    have := (h.depth_mono hx2 hy2 hl2 hl1).2 hne
    omega
  | child hp hlp hc ih =>
    intro hy2
    cases hy2 with
    | refl =>
      obtain rfl := h.unique (hx1.trans hp) .refl hlp hx hc h2
      obtain ⟨l1, hl1⟩ := h.alloc hx1
      have := h.link .refl hx h1 hl1
      have := (h.depth_mono hx1 hp hl1 hx).1
      omega
    | child hq hlq hc' =>
      obtain rfl := h.unique (hx1.trans hp) (hx2.trans hq) hlp hlq hc hc'
      exact ih hq

end RllmSubtreeOk

/-- Freeing the subtrees of `cs` one after another, given what one call frees: when they are
pairwise disjoint and untouched so far, exactly their nodes are freed. -/
theorem rllmFreeFold_spec {f : Nat} {heap : Addr → Option RllmContext}
    (hspec : ∀ {hh : Addr → Option RllmContext} {x : Addr}, RllmSubtreeOk (rllmLinks hh) x f →
      ∃ hh', rllmFreeContextInternal f hh x = some hh' ∧
        (∀ y, RllmDesc (rllmLinks hh) x y → hh' y = none) ∧
        ∀ y, ¬ RllmDesc (rllmLinks hh) x y → hh' y = hh y) :
    ∀ {cs : List Addr}, cs.Nodup → (∀ c ∈ cs, RllmSubtreeOk (rllmLinks heap) c f) →
      (∀ c ∈ cs, ∀ c' ∈ cs, ∀ y, RllmDesc (rllmLinks heap) c y →
        RllmDesc (rllmLinks heap) c' y → c = c') →
      ∀ hh : Addr → Option RllmContext,
        (∀ c ∈ cs, ∀ y, RllmDesc (rllmLinks heap) c y → hh y = heap y) →
      ∃ hh', cs.foldlM (fun h c => rllmFreeContextInternal f h c) hh = some hh' ∧
        (∀ y, (∃ c ∈ cs, RllmDesc (rllmLinks heap) c y) → hh' y = none) ∧
        ∀ y, (¬ ∃ c ∈ cs, RllmDesc (rllmLinks heap) c y) → hh' y = hh y
  | [], _, _, _, hh, _ => ⟨hh, rfl, by simp, fun _ _ => rfl⟩
  | c :: cs, hnd, hok, hdis, hh, hag => by
    have hc := List.mem_cons_self c cs
    have hagc : ∀ y, RllmDesc (rllmLinks heap) c y → rllmLinks hh y = rllmLinks heap y :=
      fun y hy => by simp only [rllmLinks, hag c hc y hy]
    obtain ⟨hh1, h1, hd1, hk1⟩ := hspec ((hok c hc).congr hagc)
    obtain ⟨hh2, h2, hd2, hk2⟩ := rllmFreeFold_spec hspec (List.nodup_cons.mp hnd).2
      (fun c' hc' => hok c' (List.mem_cons_of_mem _ hc'))
      (fun c1 h1 c2 h2 => hdis c1 (List.mem_cons_of_mem _ h1) c2 (List.mem_cons_of_mem _ h2)) hh1
      fun c' hc' y hy => by
        have hne : c ≠ c' := fun he => (List.nodup_cons.mp hnd).1 (he ▸ hc')
        rw [hk1 y fun hy' => hne (hdis c hc c' (List.mem_cons_of_mem _ hc') y (hy'.congr hagc) hy),
          hag c' (List.mem_cons_of_mem _ hc') y hy]
    refine ⟨hh2, by simp only [List.foldlM_cons, h1, Option.bind_eq_bind, Option.some_bind, h2],
      ?_, fun y hy => ?_⟩
    · rintro y ⟨c', hc', hy⟩
      by_cases hcs : ∃ c ∈ cs, RllmDesc (rllmLinks heap) c y
      · exact hd2 y hcs
      · rw [hk2 y hcs]
        rcases List.mem_cons.mp hc' with rfl | hc'
        · exact hd1 y (hy.congr' hagc)
        · exact absurd ⟨c', hc', hy⟩ hcs
    · rw [hk2 y fun ⟨c', hc', h'⟩ => hy ⟨c', List.mem_cons_of_mem _ hc', h'⟩,
        hk1 y fun h' => hy ⟨c, hc, h'.congr hagc⟩]

/-- `rllm_free_context_internal` on a subtree that is a finite tree frees exactly its nodes. -/
theorem rllmFreeContextInternal_spec : ∀ (f : Nat) {heap : Addr → Option RllmContext} {x : Addr},
    RllmSubtreeOk (rllmLinks heap) x f → ∃ heap', rllmFreeContextInternal f heap x = some heap' ∧
      (∀ y, RllmDesc (rllmLinks heap) x y → heap' y = none) ∧
      ∀ y, ¬ RllmDesc (rllmLinks heap) x y → heap' y = heap y
  | 0, heap, x, h => by
    obtain ⟨lx, hx⟩ := h.alloc .refl
    exact absurd (h.fuel .refl hx hx) (by omega)
  | f + 1, heap, x, h => by
    obtain ⟨lx, hx⟩ := h.alloc .refl
    obtain ⟨nx, hnx, rfl⟩ : ∃ nx, heap x = some nx ∧ nx.link = lx := by
      simpa only [rllmLinks, Option.map_eq_some'] using hx
    obtain ⟨hh, hf, hd, hk⟩ := rllmFreeFold_spec (rllmFreeContextInternal_spec f)
      (h.nodup .refl hx) (fun _ hc => h.child hx hc)
      (fun _ h1 _ h2 _ hy1 hy2 => by_contra fun hne => h.disjoint hx h1 h2 hne hy1 hy2) heap
      fun _ _ _ _ => rfl
    simp only [RllmContext.link] at hf
    refine ⟨Function.update hh x none, by simp only [rllmFreeContextInternal, hnx,
      Option.bind_eq_bind, Option.some_bind, hf], fun y hy => ?_, fun y hy => ?_⟩
    · rcases hy.head with rfl | ⟨l, b, hl, hb, hby⟩
      · exact Function.update_same _ _ _
      · by_cases hyx : y = x
        · subst hyx; exact Function.update_same _ _ _
        · rw [Function.update_noteq hyx]
          cases hx.symm.trans hl
          exact hd y ⟨b, hb, hby⟩
    · have hyx : y ≠ x := fun he => hy (he ▸ .refl)
      rw [Function.update_noteq hyx, hk y fun ⟨b, hb, hby⟩ => hy (.of_child hx hb hby)]

end TokenEditor
