import TokenEditor.TEFormats
import TokenEditor.TEUndoLaw

/-! The search of `te_find_text`: the match positions of a pattern in the buffer, the scan that
reads them when the pattern fits in the buffer, and the wrapped `size_t` bound when it does not.
Last, `te_detokenize` as a bounded concatenation of pieces.
-/

namespace TokenEditor

/-- The match positions `{i | i + m ≤ n ∧ B[i..i+m) = q}` in increasing order. -/
def teOccurrences (b q : List Int32) : List Nat :=
  (List.range (b.length + 1 - q.length)).filter fun i => (b.drop i).take q.length = q

theorem mem_teOccurrences {b q : List Int32} {i : Nat} :
    i ∈ teOccurrences b q ↔ i + q.length ≤ b.length ∧ (b.drop i).take q.length = q := by
  simp only [teOccurrences, List.mem_filter, List.mem_range, decide_eq_true_eq]
  constructor <;> rintro ⟨h1, h2⟩ <;> exact ⟨by omega, h2⟩

theorem teOccurrences_sorted (b q : List Int32) : (teOccurrences b q).Pairwise (· < ·) :=
  (List.pairwise_lt_range _).filter _

/-- A comparison whose reads stay inside the block tells whether the pattern starts at `i`. -/
theorem teMatchAt_eq (tokens : List Int32) :
    ∀ (q : List Int32) (i : Nat), i + q.length ≤ tokens.length →
      teMatchAt tokens i q = some (decide ((tokens.drop i).take q.length = q))
  | [], i, _ => by simp [teMatchAt]
  | t :: q, i, hi => by
    have hlt : i < tokens.length := by simp only [List.length_cons] at hi; omega
    rw [List.drop_eq_getElem_cons hlt, List.length_cons, List.take_succ_cons]
    simp only [teMatchAt, List.getElem?_eq_getElem hlt, Option.bind_eq_bind, Option.some_bind,
      List.cons.injEq]
    by_cases h : tokens[i] = t
    · simp only [h, ne_eq, not_true_eq_false, if_false, true_and,
        teMatchAt_eq tokens q (i + 1) (by simp only [List.length_cons] at hi; omega)]
    · simp [h]

/-- The outer loop over `k` starts from `i`, all of whose comparisons stay inside the block,
appends the matches among them until `max` positions are stored. -/
theorem teScanFrom_eq (tokens q : List Int32) (max : Nat) :
    ∀ (k i : Nat) (found : List Int32), found.length ≤ max →
      i + k + q.length ≤ tokens.length + 1 →
      teScanFrom tokens q max k i found = some (found ++
        (((List.range' i k).filter fun j => (tokens.drop j).take q.length = q).take
          (max - found.length)).map toPos)
  | 0, i, found, _, _ => by simp [teScanFrom]
  | k + 1, i, found, hf, hk => by
    by_cases hlt : found.length < max
    · simp only [teScanFrom, if_pos hlt, teMatchAt_eq tokens q i (by omega), Option.bind_eq_bind,
        Option.some_bind, List.range'_succ, List.filter_cons]
      by_cases hm : (tokens.drop i).take q.length = q
      · have hd : decide ((tokens.drop i).take q.length = q) = true := decide_eq_true hm
        have hf' : (found ++ [toPos i]).length ≤ max := by
          rw [List.length_append, List.length_singleton]; omega
        rw [if_pos hd, if_pos hd, teScanFrom_eq tokens q max k (i + 1) _ hf' (by omega)]
        simp only [List.length_append, List.length_singleton,
          show max - found.length = max - (found.length + 1) + 1 by omega, List.take_succ_cons,
          List.map_cons, List.append_assoc, List.singleton_append]
      · have hd : decide ((tokens.drop i).take q.length = q) = false := decide_eq_false hm
        rw [if_neg (by rw [hd]; decide), if_neg (by rw [hd]; decide),
          teScanFrom_eq tokens q max k (i + 1) _ hf (by omega)]
    · simp [teScanFrom, hlt, show max - found.length = 0 by omega]

theorem teScanFrom_full {tokens q : List Int32} {max : Nat} {found : List Int32}
    (h : ¬found.length < max) (k i : Nat) : teScanFrom tokens q max k i found = some found := by
  cases k <;> simp [teScanFrom, h]

/-- Inside the buffer the comparisons read the block as they read the client's view. -/
theorem teOccurrences_take {tokens q : List Int32} {n : Nat} (hn : n ≤ tokens.length)
    (hq : q.length ≤ n) :
    teOccurrences (tokens.take n) q =
      (List.range' 0 (n - q.length + 1)).filter fun j => (tokens.drop j).take q.length = q := by
  rw [teOccurrences, List.length_take, Nat.min_eq_left hn, ← List.range_eq_range',
    show n + 1 - q.length = n - q.length + 1 by omega]
  refine List.filter_congr fun j hj => ?_
  rw [List.mem_range] at hj
  rw [List.drop_take, List.take_take, Nat.min_eq_left (by omega)]

variable (M : LlamaModel)

/-- `te_find_text` with a pattern of `1 ≤ m ≤ n` tokens: `TE_OK`, the first `min(c, |M|)` match
positions in increasing order, and the same answer on the block cut at `n_tokens`, so no token
past the buffer is read. -/
theorem teFindText_of_fits (ctx : TeContext) (text : List UInt8) (c : Nat) {q : List Int32}
    (hn : ctx.nTokens ≤ ctx.tokens.length) (hn64 : ctx.nTokens < 2 ^ 64)
    (ha : (teMalloc ctx).1 = true) (hq : teTokenize M text (text.length + 1) false = (.ok, q))
    (hq0 : 0 < q.length) (hqn : q.length ≤ ctx.nTokens) :
    teFindText M ctx (some text) c = some (.ok, ((teOccurrences ctx.view q).take c).map toPos,
      min c (teOccurrences ctx.view q).length, (teMalloc ctx).2) ∧
    ∃ c', teFindText M { ctx with tokens := ctx.view } (some text) c =
      some (.ok, ((teOccurrences ctx.view q).take c).map toPos,
        min c (teOccurrences ctx.view q).length, c') := by
  have hscan : ∀ tokens : List Int32, ctx.nTokens ≤ tokens.length →
      tokens.take ctx.nTokens = ctx.view →
      teScanFrom tokens q c (toSizeT (ctx.nTokens - q.length : Int) + 1) 0 [] =
        some (((teOccurrences ctx.view q).take c).map toPos) := fun tokens hlen hv => by
    rw [show toSizeT (ctx.nTokens - q.length : Int) = ctx.nTokens - q.length by
        unfold toSizeT; omega,
      teScanFrom_eq tokens q c _ 0 [] (Nat.zero_le _) (by omega), ← hv,
      teOccurrences_take hlen hqn]
    rfl
  have hq' : ¬(TeError.ok ≠ .ok ∨ q.length = 0) := fun h => h.elim (· rfl) (by omega)
  have hv : ctx.view.length = ctx.nTokens := by
    rw [TeContext.view, List.length_take, Nat.min_eq_left hn]
  have ha' : (teMalloc { ctx with tokens := ctx.view }).1 = true := ha
  refine ⟨?_, (teMalloc { ctx with tokens := ctx.view }).2, ?_⟩ <;>
    simp only [teFindText, ha, ha', hq, hq', if_false, Bool.not_true, Bool.false_eq_true,
      Option.bind_eq_bind]
  · rw [show (teMalloc ctx).2.tokens = ctx.tokens from rfl,
      show (teMalloc ctx).2.nTokens = ctx.nTokens from rfl, hscan ctx.tokens hn rfl]
    simp only [Option.some_bind, List.length_map, List.length_take]
  · rw [show (teMalloc { ctx with tokens := ctx.view }).2.tokens = ctx.view from rfl,
      show (teMalloc { ctx with tokens := ctx.view }).2.nTokens = ctx.nTokens from rfl,
      hscan ctx.view hv.ge (by rw [TeContext.view, List.take_take, Nat.min_self])]
    simp only [Option.some_bind, List.length_map, List.length_take]

/-- After `te_clear` of a buffer holding `[0, 1, 2]`, with a tokenizer that reads `"abc"` as
`[0, 1, 2]` and the empty text as no token. Searching for `"abc"`: the pattern does not fit in the
empty buffer, `n_tokens - n_search` wraps, and the scan matches the cleared tokens, reporting
position 0. Searching for `""`: `TE_OK` with `*n_positions` left at 4, although the empty pattern
matches only at 0. -/
theorem teFindText_past_end (lctx : LlamaContext) :
    let M₁ : LlamaModel :=
      { (default : LlamaModel) with tokenize := fun text _ => if text = [] then [] else [0, 1, 2] }
    ∃ w, TeReachable M₁ lctx w ∧ w.ctx.view = [] ∧
      teOccurrences w.ctx.view [0, 1, 2] = [] ∧
      (∃ c, teFindText M₁ w.ctx (some [97, 98, 99]) 1 = some (.ok, [0], 1, c)) ∧
      teOccurrences w.ctx.view [] = [0] ∧
      ∃ c, teFindText M₁ w.ctx (some []) 4 = some (.ok, [], 4, c) := by
  intro M₁
  obtain ⟨ctx0, ctx1, h0, h1, hr1, -, hn1, hv1, -⟩ := teInsertTokens_fresh M₁ lctx
  have hr : TeReachable M₁ lctx ⟨ctx1, []⟩ :=
    .step (.insertTokens 0 0 (some [0, 1, 2]) 3) (.init h0) (by simp only [teStep, h1, Option.map_some'])
  obtain ⟨c2, h2, -, hn2⟩ := teClear_empties 0 hr1.wf hr1.writable
  have ht2 := (teClear_blocks h2).1
  have ha2 := teMalloc_fst_of_allocOk (teClear_allocOk 0 hr1.wf hr1.allocOk h2)
  have hv2 : c2.view = [] := by rw [TeContext.view, hn2, List.take_zero]
  have hlen : 3 ≤ c2.tokens.length := by
    have := hr1.wf.capacity_le; have := hr1.wf.nTokens_le; rw [ht2]; omega
  have hmatch : teMatchAt c2.tokens 0 [0, 1, 2] = some true := by
    rw [teMatchAt_eq _ [0, 1, 2] 0 (by simpa using hlen), List.drop_zero, ht2,
      show ([0, 1, 2] : List Int32).length = ctx1.nTokens by rw [hn1]; rfl, ← TeContext.view, hv1]
    rfl
  have hwrap : toSizeT ((0 : Nat) - (3 : Nat) : Int) = 2 ^ 64 - 3 := by unfold toSizeT; omega
  refine ⟨⟨c2, []⟩, .step (.clear 0) hr (by simp only [teStep, h2, Option.map_some']), hv2,
    by rw [hv2]; rfl, ⟨(teMalloc c2).2, ?_⟩, by rw [hv2]; rfl, ⟨(teMalloc c2).2, ?_⟩⟩
  · have hs : teScanFrom c2.tokens [0, 1, 2] 1 (toSizeT ((0 : Nat) - (3 : Nat) : Int) + 1) 0 [] =
        some [0] := by
      rw [hwrap, teScanFrom.eq_2, if_pos (by decide)]
      simp only [hmatch, Option.bind_eq_bind, Option.some_bind, if_true, List.nil_append]
      exact teScanFrom_full (by decide) _ _
    simp only [teFindText, ha2, Bool.not_true, Bool.false_eq_true, if_false]
    rw [show (teMalloc c2).2.tokens = c2.tokens from rfl,
      show (teMalloc c2).2.nTokens = 0 from hn2,
      show teTokenize M₁ [97, 98, 99] (([97, 98, 99] : List UInt8).length + 1) false = (.ok, [0, 1, 2])
        from rfl,
      if_neg (by decide), show ([0, 1, 2] : List Int32).length = 3 from rfl, hs]
    rfl
  · simp only [teFindText, ha2, Bool.not_true, Bool.false_eq_true, if_false]
    rw [show teTokenize M₁ [] (([] : List UInt8).length + 1) false = (.ok, []) from rfl, if_pos (by decide)]

/-! ## Single tokens -/

/-- The loop of `te_find_token` is the loop of `te_find_text` for the one-token pattern. -/
theorem teFindTokenFrom_eq (tokens : List Int32) (t : Int32) (max : Nat) :
    ∀ k i found, teFindTokenFrom tokens t max k i found = teScanFrom tokens [t] max k i found
  | 0, _, _ => rfl
  | k + 1, i, found => by
    simp only [teFindTokenFrom, teScanFrom, teMatchAt]
    split_ifs
    · cases tokens[i]? with
      | none => rfl
      | some x => by_cases hx : x = t <;> simp [hx, teFindTokenFrom_eq tokens t max k]
    · rfl

variable (M : LlamaModel) in
/-- `te_find_token` on any buffer and any capacity `c` stores the first `min(c, |M|)` positions of
the token in increasing order, where `M` are the positions below `n_tokens` that hold it, so no
token past the buffer is read; and on a buffer of at least one token it answers as `te_find_text`
does for every text that tokenizes to that one token. -/
theorem teFindToken_spec (ctx : TeContext) (t : Int32) (c : Nat) (hn : ctx.nTokens ≤ ctx.tokens.length) :
    teFindToken ctx t c = some (.ok, ((teOccurrences ctx.view [t]).take c).map toPos,
      min c (teOccurrences ctx.view [t]).length) ∧
    ∀ text, teTokenize M text (text.length + 1) false = (.ok, [t]) → 0 < ctx.nTokens →
      ctx.nTokens < 2 ^ 64 → (teMalloc ctx).1 = true →
      teFindText M ctx (some text) c = some (.ok, ((teOccurrences ctx.view [t]).take c).map toPos,
        min c (teOccurrences ctx.view [t]).length, (teMalloc ctx).2) := by
  have hocc : teOccurrences ctx.view [t] =
      (List.range' 0 ctx.nTokens).filter fun j => (ctx.tokens.drop j).take [t].length = [t] := by
    rcases Nat.eq_zero_or_pos ctx.nTokens with h0 | h0
    · rw [TeContext.view, h0]; rfl
    · rw [TeContext.view, teOccurrences_take (q := [t]) hn h0, List.length_singleton, Nat.sub_add_cancel h0]
  refine ⟨?_, fun text hq h0 hn64 ha => (teFindText_of_fits M ctx text c hn hn64 ha hq
    Nat.one_pos h0).1⟩
  rw [teFindToken, teFindTokenFrom_eq, teScanFrom_eq _ _ _ _ _ _ (Nat.zero_le _) (by simpa using hn),
    hocc]
  simp only [List.length_nil, Nat.sub_zero, List.nil_append, Option.bind_eq_bind, Option.some_bind,
    List.length_map, List.length_take]

/-- A buffer `[0, 5, 1, 5]` written by `te_insert_tokens`: `te_find_token` stores the positions 1
and 3 of token 5, and `te_find_text` gives the same answer for a text the model tokenizes to it. -/
theorem teFindToken_spec_twice : ∃ ctx : TeContext, ctx.view = [0, 5, 1, 5] ∧
    teFindToken ctx 5 4 = some (.ok, [1, 3], 2) ∧
    teFindText { (default : LlamaModel) with tokenize := fun _ _ => [5] } ctx (some [97]) 4 =
      some (.ok, [1, 3], 2, (teMalloc ctx).2) := by
  obtain ⟨ctx0, h0, ha0⟩ := teInit_allocOk ⟨[], []⟩ (List.not_mem_nil true)
  have hi := teInit_initial h0
  have hr0 : ctx0.Ready := ⟨hi.wf, hi.writable, ha0⟩
  obtain ⟨c1, -, he1, hn1, -, hv1, -⟩ := teInsertTokens_spec default 0 0 [0, 5, 1, 5] 4 hr0
    (by decide) (by simp [hi.nTokens_eq]) (by decide) le_rfl
  have hr : c1.Ready := he1.ready hr0
  have hv : c1.view = [0, 5, 1, 5] := by
    rw [hv1, TeContext.view, hi.nTokens_eq, List.take_zero]; rfl
  obtain ⟨hfind, htext⟩ := teFindToken_spec { (default : LlamaModel) with tokenize := fun _ _ => [5] }
    c1 5 4 (hr.wf.nTokens_le.trans hr.wf.capacity_le)
  rw [hv] at hfind htext
  exact ⟨c1, hv, hfind, htext [97] rfl (by rw [hn1, hi.nTokens_eq]; decide)
    (by rw [hn1, hi.nTokens_eq]; decide) (teMalloc_fst_of_allocOk hr.allocOk)⟩

/-! ## Detokenization -/

section
variable (M : LlamaModel) (outLen : Nat)

/-- The loop of `te_detokenize` from `out` bytes written: it succeeds exactly when every
remaining piece fits the scratch buffer and all of them fit after `out`; it only appends
pieces in order, and never past `out_len`. -/
theorem teDetokenize_go_spec : ∀ (ts : List Int32) (out : List UInt8), out.length ≤ outLen →
    ((teDetokenize.go M outLen ts out).1 = .ok ↔ (∀ t ∈ ts, (M.tokenToPiece t).length ≤ 256) ∧
      out.length + (ts.flatMap M.tokenToPiece).length ≤ outLen) ∧
    ((teDetokenize.go M outLen ts out).1 = .ok →
      (teDetokenize.go M outLen ts out).2 = out ++ ts.flatMap M.tokenToPiece) ∧
    (teDetokenize.go M outLen ts out).2 <+: out ++ ts.flatMap M.tokenToPiece ∧
    (teDetokenize.go M outLen ts out).2.length ≤ outLen
  | [], out, h => by simp [teDetokenize.go, h]
  | t :: ts, out, h => by
    simp only [teDetokenize.go]
    split_ifs with hbig hfull
    · exact ⟨by simp; omega, by simp, by simp, h⟩
    · refine ⟨?_, by simp, by simp, h⟩
      simp only [List.flatMap_cons, List.length_append, reduceCtorEq, false_iff, not_and]
      omega
    · simpa [Nat.add_assoc, not_lt.mp hbig] using
        teDetokenize_go_spec ts (out ++ M.tokenToPiece t) (by simp; omega)

/-- `te_detokenize` writes the pieces' concatenation, bounded by `out_len`. -/
theorem teDetokenize_bounded_concat (ts : List Int32) :
    ((teDetokenize M ts outLen).1 = .ok ↔
      (∀ t ∈ ts, (M.tokenToPiece t).length ≤ 256) ∧ (ts.flatMap M.tokenToPiece).length ≤ outLen) ∧
    ((teDetokenize M ts outLen).1 = .ok → (teDetokenize M ts outLen).2 = ts.flatMap M.tokenToPiece ∧
      teDetokenizeOutLen M ts outLen = (ts.flatMap M.tokenToPiece).length) ∧
    (teDetokenize M ts outLen).2 <+: ts.flatMap M.tokenToPiece ∧
    (teDetokenize M ts outLen).2.length ≤ outLen ∧
    ((teDetokenize M ts outLen).1 ≠ .ok → teDetokenizeOutLen M ts outLen = outLen) := by
  obtain ⟨hiff, hout, hpre, hlen⟩ := teDetokenize_go_spec M outLen ts [] (Nat.zero_le _)
  simp only [List.length_nil, Nat.zero_add, List.nil_append] at hiff hout hpre
  have hn : teDetokenizeOutLen M ts outLen = if (teDetokenize M ts outLen).1 = .ok then
      (teDetokenize M ts outLen).2.length else outLen := by
    unfold teDetokenizeOutLen
    rcases teDetokenize M ts outLen with ⟨e, out⟩
    cases e <;> rfl
  exact ⟨hiff, fun h => ⟨hout h, by rw [hn, if_pos h]; exact congrArg List.length (hout h)⟩, hpre, hlen,
    fun h => by rw [hn, if_neg h]⟩

end

end TokenEditor
