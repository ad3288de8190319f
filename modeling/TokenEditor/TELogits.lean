import TokenEditor.TECache
import Mathlib.Data.List.Nodup

/-! Logits. `te_get_top_k` runs `te_compute_logits`, copies the runtime's logits into a candidate
array and brings the `k` largest to its front by `k` rounds of selection sort, one swap a round.
The logits are an argument of any linearly ordered type: the runtime's floats without NaN. -/

namespace TokenEditor

/-- `te_compute_logits`: a dirty cache is synced first; the position and sequence are ignored. -/
def teComputeLogits (ctx : TeContext) : Option (TeError × TeContext) :=
  if ctx.kvCacheDirty then teSyncKvCache ctx else some (.ok, ctx)

section Model
variable {α : Type} [LinearOrder α]

/-- The inner loop of a selection round: the index of the largest logit among `cands[i..V)`,
the first one on ties. -/
def teArgMax (V : Nat) (cands : List (Int32 × α)) (i : Nat) : Option Nat :=
  (List.range' (i + 1) (V - (i + 1))).foldlM (fun m j => do
    let cj ← cands[j]?
    let cm ← cands[m]?
    pure (if cm.2 < cj.2 then j else m)) i

/-- The swap of `candidates[i]` and `candidates[m]` through `tmp`. -/
def teSwap {β : Type} (cands : List β) (i m : Nat) : Option (List β) := do
  let ci ← cands[i]?
  let cm ← cands[m]?
  pure ((cands.set i cm).set m ci)

/-- `n` rounds of the selection loop from round `i`: the candidates after the swaps, and the
entries of `out[i..i+n)`. -/
def teSelectTop (V : Nat) :
    Nat → Nat → List (Int32 × α) → Option (List (Int32 × α) × List (Int32 × α))
  | 0, _, cands => some (cands, [])
  | n + 1, i, cands => do
    let m ← teArgMax V cands i
    let cands ← (if m ≠ i then teSwap cands i m else some cands)
    let c ← cands[i]?
    let (cands, rest) ← teSelectTop V n (i + 1) cands
    pure (cands, c :: rest)

/-- `te_get_top_k` into a caller buffer, with `logits` the array `llama_get_logits` returns: the
error, the entries `out[0 .. min(k, V))` with their logits, and the editor. -/
def teGetTopK (M : LlamaModel) (ctx : TeContext) (pos seqId : Int32) (logits : List α) (k : Nat) :
    Option (TeError × List (TeTokenInfo × α) × TeContext) :=
  if k = 0 then some (.errorBufferTooSmall, [], ctx) else do
  let (err, ctx) ← teComputeLogits ctx
  if err ≠ .ok then some (err, [], ctx) else
  let (ok, ctx) := teMalloc ctx
  if !ok then some (.errorAllocationFailed, [], ctx) else do
  let vals ← blockRead logits 0 M.nVocab
  let (_, top) ← teSelectTop M.nVocab (min k M.nVocab) 0 (vals.mapIdx fun i l => (toPos i, l))
  some (.ok, top.map (fun c => ({ id := c.1, pos := pos, seqId := seqId, hasLogit := true
                                  flags := teGetTokenFlags M c.1 }, c.2)), ctx)

end Model

section Spec
variable {α : Type} [LinearOrder α]

/-- The running maximum of the inner loop dominates its seed and every index it scans. -/
theorem teArgMax_fold (cands : List (Int32 × α)) : ∀ (js : List Nat) (acc : Nat)
    (hacc : acc < cands.length), (∀ j ∈ js, j < cands.length) →
    ∃ r, js.foldlM (fun m j => do
        let cj ← cands[j]?
        let cm ← cands[m]?
        pure (if cm.2 < cj.2 then j else m)) acc = some r ∧ (r = acc ∨ r ∈ js) ∧
      ∃ hr : r < cands.length, cands[acc].2 ≤ cands[r].2 ∧
        ∀ j (hj : j < cands.length), j ∈ js → cands[j].2 ≤ cands[r].2
  | [], acc, hacc, _ => ⟨acc, rfl, .inl rfl, hacc, le_rfl, fun _ _ h => absurd h (List.not_mem_nil _)⟩
  | j :: js, acc, hacc, hjs => by
    have hj : j < cands.length := hjs j (List.mem_cons_self _ _)
    set acc' := if cands[acc].2 < cands[j].2 then j else acc with hacc'
    have h1 : acc' < cands.length := by rw [hacc']; split_ifs <;> assumption
    have h2 : cands[acc].2 ≤ cands[acc'].2 ∧ cands[j].2 ≤ cands[acc'].2 := by
      simp only [hacc']
      split_ifs with h
      · exact ⟨h.le, le_rfl⟩
      · exact ⟨le_rfl, not_lt.mp h⟩
    obtain ⟨r, hr, hrm, hlt, hacc'r, hjsr⟩ :=
      teArgMax_fold cands js acc' h1 fun j' h' => hjs j' (List.mem_cons_of_mem _ h')
    refine ⟨r, ?_, ?_, hlt, h2.1.trans hacc'r, fun j' hj' hm => ?_⟩
    · simp only [List.foldlM_cons, List.getElem?_eq_getElem hj, List.getElem?_eq_getElem hacc]
      exact hr
    · rcases hrm with rfl | h
      · rw [hacc']; split_ifs
        · exact .inr (List.mem_cons_self _ _)
        · exact .inl rfl
      · exact .inr (List.mem_cons_of_mem _ h)
    · rcases List.mem_cons.mp hm with rfl | h
      · exact h2.2.trans hacc'r
      · exact hjsr j' hj' h

theorem teArgMax_spec {V : Nat} {cands : List (Int32 × α)} {i : Nat} (hV : cands.length = V)
    (hi : i < V) : ∃ m, teArgMax V cands i = some m ∧ i ≤ m ∧
      ∃ hm : m < cands.length, ∀ b ∈ cands.drop i, b.2 ≤ cands[m].2 := by
  obtain ⟨r, hr, hrm, hlt, hir, hjs⟩ := teArgMax_fold cands (List.range' (i + 1) (V - (i + 1))) i
    (hV ▸ hi) fun j hj => by rw [List.mem_range'_1] at hj; omega
  refine ⟨r, hr, ?_, hlt, fun b hb => ?_⟩
  · rcases hrm with rfl | h
    · exact le_rfl
    · rw [List.mem_range'_1] at h; omega
  · obtain ⟨k, hk, rfl⟩ := List.mem_iff_getElem.mp hb
    rw [List.getElem_drop]
    rcases Nat.eq_zero_or_pos k with rfl | hk0
    · exact hir
    · rw [List.length_drop] at hk
      exact hjs _ _ (List.mem_range'_1.mpr (by omega))

/-- Putting `x` in the place of `T[j]` and `T[j]` in front permutes `x :: T`. -/
theorem perm_getElem_cons_set {β : Type} (x : β) : ∀ (T : List β) (j : Nat) (hj : j < T.length),
    (T[j] :: T.set j x).Perm (x :: T)
  | t :: T, 0, _ => .swap x t T
  | t :: T, j + 1, hj => by
    have ih := perm_getElem_cons_set x T j (by simpa using hj)
    exact (List.Perm.swap _ _ _).trans ((ih.cons t).trans (.swap _ _ _))

/-- A swap inside the tail `cands[i..)` brings `cands[m]` to `i` and permutes the tail. -/
theorem teSwap_spec {β : Type} {cands : List β} {i m : Nat} (him : i < m) (hm : m < cands.length) :
    ∃ l, teSwap cands i m = some l ∧ l.length = cands.length ∧ ∃ hi : i < l.length,
      l[i] = cands[m] ∧ (l.drop i).Perm (cands.drop i) := by
  have hi : i < cands.length := him.trans hm
  refine ⟨_, by simp only [teSwap, List.getElem?_eq_getElem hi, List.getElem?_eq_getElem hm]; rfl,
    by simp, by simpa using hi, by rw [List.getElem_set_ne him.ne', List.getElem_set_self], ?_⟩
  rw [List.drop_set, if_neg (by omega), List.drop_set, if_neg (by omega), Nat.sub_self,
    List.drop_eq_getElem_cons hi, List.set_cons_zero]
  obtain ⟨j, hj⟩ : ∃ j, m - i = j + 1 := ⟨m - i - 1, by omega⟩
  rw [hj, List.set_cons_succ]
  have hT : j < (cands.drop (i + 1)).length := by rw [List.length_drop]; omega
  have := perm_getElem_cons_set cands[i] (cands.drop (i + 1)) j hT
  rw [List.getElem_drop] at this
  simpa only [show i + 1 + j = m by omega] using this

/-- `n` rounds from round `i` over `V` candidates: the entries they write are `n` of the tail
`cands[i..)`, in non-increasing order of logit, and none of the others has a larger logit. -/
theorem teSelectTop_spec {V : Nat} : ∀ (n i : Nat) (cands : List (Int32 × α)), cands.length = V →
    i + n ≤ V → ∃ cands' top, teSelectTop V n i cands = some (cands', top) ∧ top.length = n ∧
      ∃ rest, (top ++ rest).Perm (cands.drop i) ∧ top.Pairwise (fun a b => b.2 ≤ a.2) ∧
        ∀ a ∈ top, ∀ b ∈ rest, b.2 ≤ a.2
  | 0, i, cands, _, _ => ⟨cands, [], rfl, rfl, cands.drop i, .rfl, .nil, by simp⟩
  | n + 1, i, cands, hV, hn => by
    obtain ⟨m, hm, him, hmlt, hmax⟩ := teArgMax_spec hV (by omega : i < V)
    obtain ⟨l, hl, hlen, hil, hli, hperm⟩ : ∃ l, (if m ≠ i then teSwap cands i m else some cands) =
        some l ∧ l.length = cands.length ∧ ∃ hi : i < l.length, l[i] = cands[m] ∧
          (l.drop i).Perm (cands.drop i) := by
      by_cases hmi : m = i
      · subst hmi; exact ⟨cands, by simp, rfl, hmlt, rfl, .rfl⟩
      · obtain ⟨l, h1, h2, h3, h4, h5⟩ := teSwap_spec (lt_of_le_of_ne him (Ne.symm hmi)) hmlt
        exact ⟨l, by simp [hmi, h1], h2, h3, h4, h5⟩
    obtain ⟨cands', top, htop, hlen', rest, hp, hsorted, hrest⟩ :=
      teSelectTop_spec n (i + 1) l (hlen.trans hV) (by omega)
    have hdrop : l.drop i = l[i] :: l.drop (i + 1) := List.drop_eq_getElem_cons hil
    have hle : ∀ b ∈ l.drop (i + 1), b.2 ≤ l[i].2 := fun b hb => by
      rw [hli]; exact hmax b (hperm.subset (by rw [hdrop]; exact List.mem_cons_of_mem _ hb))
    refine ⟨cands', l[i] :: top, ?_, by simp [hlen'], rest, ?_, ?_, ?_⟩
    · rw [teSelectTop, hm, Option.bind_eq_bind, Option.some_bind]
      dsimp only
      rw [hl]
      simp only [Option.bind_eq_bind, Option.some_bind, List.getElem?_eq_getElem hil, htop,
        Option.pure_def]
    · exact ((hp.cons _).trans (hdrop ▸ .rfl)).trans hperm
    · exact List.pairwise_cons.mpr ⟨fun b hb => hle b (hp.subset (List.mem_append_left _ hb)),
        hsorted⟩
    · intro a ha b hb
      rcases List.mem_cons.mp ha with rfl | ha
      · exact hle b (hp.subset (List.mem_append_right _ hb))
      · exact hrest a ha b hb

/-- The candidate array of `V` logits: token `i` with `logits[i]`. -/
theorem teCandidates_ids {β : Type} {V : Nat} (hV : V < 2^31) {vals : List β}
    (hlen : vals.length = V) :
    ((vals.mapIdx fun i l => (toPos i, l)).map Prod.fst).Nodup ∧
      ∀ c ∈ vals.mapIdx (fun i l => (toPos i, l)), ∃ i, ∃ hi : i < vals.length,
        c = (toPos i, vals[i]) ∧ (toPos i).toInt = i := by
  have hids : (vals.mapIdx fun i l => (toPos i, l)).map Prod.fst = (List.range V).map toPos := by
    apply List.ext_getElem (by simp [hlen])
    intro n h1 h2
    simp
  refine ⟨hids ▸ (List.nodup_range V).map_on fun x hx y hy hxy => ?_, fun c hc => ?_⟩
  · rw [List.mem_range] at hx hy
    have := congrArg BitVec.toInt hxy
    rwa [toInt_toPos (by omega), toInt_toPos (by omega), Nat.cast_inj] at this
  · obtain ⟨i, hi, rfl⟩ := List.mem_mapIdx.mp hc
    exact ⟨i, hi, rfl, toInt_toPos (by omega)⟩

/-- On `TE_OK`, `te_get_top_k` writes `min(k, V)` entries with distinct ids in `[0, V)`, each
with the logit of its id, in non-increasing order of logit, and no id left out has a larger
logit than any entry written. -/
theorem teGetTopK_selects (M : LlamaModel) (ctx : TeContext) (pos seqId : Int32) (logits : List α)
    (k : Nat) (hV : M.nVocab < 2^31) (hlen : M.nVocab ≤ logits.length)
    {out : List (TeTokenInfo × α)} {ctx' : TeContext}
    (h : teGetTopK M ctx pos seqId logits k = some (.ok, out, ctx')) :
    out.length = min k M.nVocab ∧ (out.map (·.1.id)).Nodup ∧
    (∀ e ∈ out, 0 ≤ e.1.id.toInt ∧ e.1.id.toInt < M.nVocab ∧
      logits[e.1.id.toInt.toNat]? = some e.2 ∧ e.1.pos = pos ∧ e.1.seqId = seqId ∧
      e.1.hasLogit = true ∧ e.1.flags = teGetTokenFlags M e.1.id) ∧
    (out.map (·.2)).Pairwise (· ≥ ·) ∧
    ∀ i (hi : i < M.nVocab), toPos i ∉ out.map (·.1.id) → ∀ e ∈ out, logits[i] ≤ e.2 := by
  unfold teGetTopK at h
  split at h
  · cases h
  rw [Option.bind_eq_bind] at h
  obtain ⟨⟨err, ctx1⟩, -, h⟩ := Option.bind_eq_some.mp h
  dsimp only at h
  split at h
  · cases h; contradiction
  split at h
  · cases h
  have hvals : (logits.drop 0).take M.nVocab = logits.take M.nVocab := by rw [List.drop_zero]
  have hcl : ((logits.take M.nVocab).mapIdx fun i l => (toPos i, l)).length = M.nVocab := by
    simp [hlen]
  obtain ⟨cands', top, hsel, htl, rest, hperm, hsorted, hrest⟩ :=
    teSelectTop_spec (min k M.nVocab) 0 _ hcl (by omega)
  rw [blockRead_eq (by omega), hvals, Option.bind_eq_bind, Option.some_bind, hsel] at h
  cases h
  rw [List.drop_zero] at hperm
  obtain ⟨hnd, hcand⟩ := teCandidates_ids hV
    (show (logits.take M.nVocab).length = M.nVocab by simp; omega)
  have hsub : ∀ c ∈ top, c ∈ (logits.take M.nVocab).mapIdx fun i l => (toPos i, l) :=
    fun c hc => hperm.subset (List.mem_append_left _ hc)
  simp only [List.map_map, List.length_map, Function.comp_def, List.mem_map]
  refine ⟨htl, ?_, ?_, List.pairwise_map.mpr hsorted, ?_⟩
  · have := (hperm.map Prod.fst).nodup_iff.mpr hnd
    rw [List.map_append] at this
    exact (List.nodup_append.mp this).1
  · rintro _ ⟨c, hc, rfl⟩
    obtain ⟨i, hi, rfl, hid⟩ := hcand c (hsub c hc)
    rw [List.length_take] at hi
    refine ⟨by rw [hid]; omega, by rw [hid]; omega, ?_, rfl, rfl, rfl, rfl⟩
    rw [hid, Int.toNat_ofNat, List.getElem_take, List.getElem?_eq_getElem]
  · rintro i hi hnot _ ⟨a, ha, rfl⟩
    have hc : (toPos i, logits[i]) ∈ (logits.take M.nVocab).mapIdx fun i l => (toPos i, l) :=
      List.mem_mapIdx.mpr ⟨i, by simp; omega, by simp [List.getElem_take]⟩
    rcases List.mem_append.mp (hperm.symm.subset hc) with htop | hr
    · exact absurd ⟨_, htop, rfl⟩ hnot
    · exact hrest a ha _ hr

end Spec
theorem teGetTopK_selects_three :
    ∃ ctx out ctx', teGetTopK { (default : LlamaModel) with nVocab := 3 } ctx 0 0 [1, 3, 2] 2 =
        some (.ok, out, ctx') ∧
      out.length = min 2 3 ∧ (out.map (·.1.id)).Nodup ∧
      (∀ e ∈ out, 0 ≤ e.1.id.toInt ∧ e.1.id.toInt < (3 : Nat) ∧
        [1, 3, 2][e.1.id.toInt.toNat]? = some e.2 ∧ e.1.pos = 0 ∧ e.1.seqId = 0 ∧
        e.1.hasLogit = true ∧ e.1.flags = teGetTokenFlags { (default : LlamaModel) with nVocab := 3 } e.1.id) ∧
      (out.map (·.2)).Pairwise (· ≥ ·) ∧
      ∀ i (hi : i < 3), toPos i ∉ out.map (·.1.id) → ∀ e ∈ out, [1, 3, 2][i] ≤ e.2 := by
  obtain ⟨ctx, h0⟩ : ∃ c, (teInit ⟨[], []⟩ []).1 = some c := ⟨_, rfl⟩
  obtain ⟨out, ctx', h⟩ : ∃ out ctx', teGetTopK { (default : LlamaModel) with nVocab := 3 } ctx 0 0
      ([1, 3, 2] : List Nat) 2 = some (.ok, out, ctx') := by
    cases h0; exact ⟨_, _, rfl⟩
  exact ⟨ctx, out, ctx', h, teGetTopK_selects _ _ _ _ _ _ (by decide) (by decide) h⟩

end TokenEditor
