import Mathlib.Data.Nat.Digits
import TokenEditor.TECache

/-! The text of `te_export_json`: the decimal token array, the buffer invariant that its chain of
`snprintf` calls keeps, and a reader for the array that inverts it. The size estimate
`32 + 12·n` is enough because a rendered `int32` has at most 11 characters. -/

namespace TokenEditor

/-! ### The exported text -/

/-- The decimal renderings of the tokens, joined by commas. -/
def teJsonItems : List Int32 → List Char
  | [] => []
  | [t] => teDecimal t
  | t :: ts => teDecimal t ++ ',' :: teJsonItems ts

/-- `{"tokens":[d_0,…,d_{n-1}]}`. -/
def teJsonText (ts : List Int32) : List Char :=
  "\x7b\"tokens\":[".toList ++ teJsonItems ts ++ "]\x7d".toList

theorem teJsonItems_concat (ts : List Int32) (t : Int32) :
    teJsonItems (ts ++ [t]) =
      if ts = [] then teDecimal t else teJsonItems ts ++ ',' :: teDecimal t := by
  induction ts with
  | nil => rfl
  | cons a ts ih =>
    cases ts with
    | nil => rfl
    | cons b ts =>
      rw [if_neg (List.cons_ne_nil _ _)]
      show teDecimal a ++ ',' :: teJsonItems (b :: ts ++ [t]) =
        (teDecimal a ++ ',' :: teJsonItems (b :: ts)) ++ _
      rw [ih, if_neg (List.cons_ne_nil _ _)]
      simp

theorem toDigits_length_le {m : Nat} (h : m ≤ 2 ^ 31) : (Nat.toDigits 10 m).length ≤ 10 :=
  Nat.toDigitsCore_length 10 (by decide) (m + 1) m 10 (by omega) (by decide)

theorem length_teDecimal_le (t : Int32) : (teDecimal t).length ≤ 11 := by
  have hb := toInt_bounds t
  cases h : t.toInt with
  | ofNat m =>
    have : (teDecimal t).length = (Nat.toDigits 10 m).length := by rw [teDecimal, h]; rfl
    have := toDigits_length_le (m := m) (by simp only [h, Int.ofNat_eq_coe, Int.negSucc_eq] at hb; omega)
    omega
  | negSucc m =>
    have : (teDecimal t).length = (Nat.toDigits 10 (m + 1)).length + 1 := by rw [teDecimal, h]; rfl
    have := toDigits_length_le (m := m + 1) (by simp only [h, Int.ofNat_eq_coe, Int.negSucc_eq] at hb; omega)
    omega

theorem length_teJsonItems_le (ts : List Int32) : (teJsonItems ts).length ≤ 12 * ts.length := by
  induction ts with
  | nil => simp [teJsonItems]
  | cons a ts ih =>
    have := length_teDecimal_le a
    cases ts with
    | nil => simp only [teJsonItems]; simp; omega
    | cons b ts => simp only [teJsonItems, List.length_append, List.length_cons] at ih ⊢; omega

/-! ### The chain of prints -/

/-- After the prints that wrote `P` from offset 0: the `int` offset is `|P|`, the buffer starts
with `P` and keeps its length, and past the slot after `P` it still holds the caller's
characters. -/
structure JsonPrinted (buf P : List Char) (acc : List Char × Int32) : Prop where
  offset : acc.2 = toPos P.length
  fits : P.length < 2 ^ 31
  text : acc.1.take P.length = P
  length : acc.1.length = buf.length
  tail : acc.1.drop (P.length + 1) = buf.drop (P.length + 1)

theorem JsonPrinted.init (buf : List Char) : JsonPrinted buf [] (buf, 0) :=
  ⟨rfl, by decide, List.take_zero _, rfl, rfl⟩

/-- One print that fits: it lands at the offset, whole, with its `NUL` after it. -/
theorem JsonPrinted.print {buf P s : List Char} {acc : List Char × Int32}
    (h : JsonPrinted buf P acc) (hs : P.length + s.length < buf.length)
    (hfit : P.length + s.length < 2 ^ 31) (hsz : buf.length < 2 ^ 64) :
    ∃ acc', teJsonPrint buf.length acc s = some acc' ∧ JsonPrinted buf (P ++ s) acc' ∧
      acc'.1[(P ++ s).length]? = some (Char.ofNat 0) := by
  have ho : acc.2.toInt = P.length := by rw [h.offset]; exact toInt_toPos (by omega)
  have hsize : toSizeT (buf.length - acc.2.toInt) = buf.length - P.length := by
    rw [ho]; unfold toSizeT; omega
  have hw : P.length + (s ++ [Char.ofNat 0]).length ≤ acc.1.length := by
    simp only [List.length_append, List.length_singleton, h.length]; omega
  have hbuf : acc.1.take P.length ++ (s ++ [Char.ofNat 0]) ++
      acc.1.drop (P.length + (s ++ [Char.ofNat 0]).length) =
      (P ++ s) ++ Char.ofNat 0 :: buf.drop ((P ++ s).length + 1) := by
    rw [h.text, List.length_append, List.length_append, List.length_singleton, ← Nat.add_assoc,
      Nat.add_right_comm, ← List.drop_drop, h.tail, List.drop_drop]
    simp only [List.append_assoc, List.singleton_append]
  have hoff : acc.2.toInt.toNat = P.length := by omega
  unfold teJsonPrint
  rw [if_neg (by omega), hsize, hoff]
  simp only [snprintfAt, if_neg (show buf.length - P.length ≠ 0 by omega),
    List.take_of_length_le (show s.length ≤ buf.length - P.length - 1 by omega),
    blockWrite_eq hw, hbuf, Option.map_some']
  have hlen : ((P ++ s) ++ Char.ofNat 0 :: buf.drop ((P ++ s).length + 1)).length =
      buf.length := by
    simp only [List.length_append, List.length_cons, List.length_drop]; omega
  refine ⟨_, rfl, ⟨?_, by rw [List.length_append]; exact hfit, List.take_left' rfl, hlen,
    List.drop_append 1⟩, by rw [List.getElem?_append_right (le_refl _), Nat.sub_self, List.getElem?_cons_zero]⟩
  rw [h.offset, toPos, toPos, BitVec.ofNat_add_ofNat, List.length_append]

theorem JsonPrinted.congr {buf P Q : List Char} {acc : List Char × Int32}
    (h : JsonPrinted buf P acc) (hPQ : P = Q) : JsonPrinted buf Q acc := hPQ ▸ h

section Loop

variable {buf pre : List Char} {tokens : List Int32} {n : Nat}

/-- The loop of `te_export_json` over the first `k` tokens appends their comma-joined renderings,
so long as `32 + 12·n` characters fit in the buffer and in an `int`. -/
theorem teJsonItem_foldlM (hn : n ≤ tokens.length) (hpre : pre.length = 11)
    (hbuf : 32 + 12 * n ≤ buf.length) (hint : 12 * n + 32 ≤ 2 ^ 31 - 1)
    (hsz : buf.length < 2 ^ 64) {acc : List Char × Int32} (h : JsonPrinted buf pre acc) :
    ∀ k ≤ n, ∃ acc', (List.range k).foldlM (teJsonItem buf.length tokens) acc = some acc' ∧
      JsonPrinted buf (pre ++ teJsonItems (tokens.take k)) acc' := by
  intro k hk
  induction k with
  | zero => exact ⟨acc, rfl, h.congr (by simp [teJsonItems])⟩
  | succ k ih =>
    obtain ⟨acc1, h1, hp1⟩ := ih (by omega)
    obtain ⟨t, ht⟩ : ∃ t, tokens[k]? = some t := ⟨_, List.getElem?_eq_getElem (by omega)⟩
    have htake : tokens.take (k + 1) = tokens.take k ++ [t] := by
      rw [List.take_succ, ht]; rfl
    have hlen := length_teJsonItems_le (tokens.take (k + 1))
    have hdec := length_teDecimal_le t
    rw [htake, teJsonItems_concat, List.length_append, List.length_take,
      Nat.min_eq_left (by omega), List.length_singleton] at hlen
    rw [List.range_succ, List.foldlM_append, h1, htake, teJsonItems_concat]
    simp only [Option.bind_eq_bind, Option.some_bind, List.foldlM_cons, List.foldlM_nil,
      teJsonItem, ht]
    by_cases hk0 : k = 0
    · subst hk0
      simp only [List.take_zero, if_pos rfl, if_neg (Nat.lt_irrefl 0), pure, Option.some_bind]
      simp only [teJsonItems, List.append_nil, List.take_zero] at hp1 hlen
      obtain ⟨acc2, h2, hp2, -⟩ := hp1.print (s := teDecimal t) (by omega) (by omega) hsz
      simp only [h2, Option.some_bind]
      exact ⟨acc2, rfl, hp2⟩
    · have hne : tokens.take k ≠ [] := List.ne_nil_of_length_pos (by simp; omega)
      rw [if_neg hne] at hlen ⊢
      simp only [List.length_append, List.length_cons] at hlen
      have hk1 := length_teJsonItems_le (tokens.take k)
      obtain ⟨acc2, h2, hp2, -⟩ := hp1.print (s := [','])
        (by simp only [List.length_append, List.length_singleton]; omega)
        (by simp only [List.length_append, List.length_singleton]; omega) hsz
      obtain ⟨acc3, h3, hp3, -⟩ := hp2.print (s := teDecimal t)
        (by simp only [List.length_append, List.length_singleton]; omega)
        (by simp only [List.length_append, List.length_singleton]; omega) hsz
      simp only [if_pos (Nat.pos_of_ne_zero hk0), h2, Option.some_bind, h3]
      exact ⟨acc3, rfl, hp3.congr (by simp)⟩

end Loop

/-! ### Reading the array back -/

/-- Reads the decimal digits at the head onto the value `v`. -/
def teReadNat (v : Nat) : List Char → Nat × List Char
  | c :: cs => if c.isDigit then teReadNat (10 * v + (c.toNat - 48)) cs else (v, c :: cs)
  | [] => (v, [])

/-- Reads a decimal integer, with an optional leading minus, at the head. -/
def teReadInt (cs : List Char) : Option (Int × List Char) :=
  let (neg, ds) := if cs.head? = some '-' then (true, cs.tail) else (false, cs)
  if ds.head?.map Char.isDigit = some true then
    let (v, r) := teReadNat 0 ds
    some (if neg then -(v : Int) else v, r)
  else none

/-- Reads at most `fuel` comma-separated integers. -/
def teReadItems : Nat → List Char → Option (List Int × List Char)
  | 0, _ => none
  | fuel + 1, cs => (teReadInt cs).bind fun (v, r) =>
    match r with
    | ',' :: r => (teReadItems fuel r).map fun (vs, r) => (v :: vs, r)
    | r => some ([v], r)

/-- Reads `{"tokens":[d_0,…,d_{n-1}]}` back into 32-bit tokens. -/
def teJsonParse (s : List Char) : Option (List Int32) :=
  let pre := "\x7b\"tokens\":[".toList
  let post := "]\x7d".toList
  if s.take pre.length ≠ pre then none else
  let body := s.drop pre.length
  if body = post then some [] else
  match teReadItems body.length body with
  | some (vs, r) => if r = post then some (vs.map (BitVec.ofInt 32)) else none
  | none => none

/-- The value of a run of decimal digits read onto `v`. -/
def digitsValue (v : Nat) (D : List Char) : Nat := D.foldl (fun v c => 10 * v + (c.toNat - 48)) v

theorem digitChar_digit : ∀ d < 10,
    (Nat.digitChar d).isDigit = true ∧ (Nat.digitChar d).toNat - 48 = d := by
  decide

/-- The digits that `toDigitsCore` puts in front: there are some, all decimal, worth `n`. -/
theorem toDigitsCore_digits (f n : Nat) (ds : List Char) (hf : n < f) :
    ∃ D, Nat.toDigitsCore 10 f n ds = D ++ ds ∧ D ≠ [] ∧ (∀ c ∈ D, c.isDigit = true) ∧
      digitsValue 0 D = n := by
  induction f generalizing n ds with
  | zero => omega
  | succ f ih =>
    have hd := digitChar_digit (n % 10) (Nat.mod_lt _ (by decide))
    by_cases h0 : n / 10 = 0
    · refine ⟨[Nat.digitChar (n % 10)], by simp [Nat.toDigitsCore, h0], by simp, by simp [hd.1],
        ?_⟩
      simp only [digitsValue, List.foldl_cons, List.foldl_nil, hd.2]
      omega
    · obtain ⟨D, hD, hne, hdig, hval⟩ := ih (n / 10) (Nat.digitChar (n % 10) :: ds) (by omega)
      refine ⟨D ++ [Nat.digitChar (n % 10)], by simp [Nat.toDigitsCore, h0, hD], by simp, ?_, ?_⟩
      · intro c hc
        rcases List.mem_append.1 hc with hc | hc
        · exact hdig c hc
        · rw [List.mem_singleton.1 hc]; exact hd.1
      · simp only [digitsValue, List.foldl_append, List.foldl_cons, List.foldl_nil, hd.2] at hval ⊢
        rw [hval]
        omega

theorem teReadNat_append (v : Nat) {D r : List Char} (hD : ∀ c ∈ D, c.isDigit = true)
    (hr : ∀ c ∈ r.head?, c.isDigit = false) : teReadNat v (D ++ r) = (digitsValue v D, r) := by
  induction D generalizing v with
  | nil =>
    cases r with
    | nil => rfl
    | cons c r => simp [teReadNat, hr c rfl, digitsValue]
  | cons c D ih =>
    show teReadNat v (c :: (D ++ r)) = _
    rw [teReadNat, if_pos (hD c (List.mem_cons_self _ _)),
      ih _ fun c hc => hD c (List.mem_cons_of_mem _ hc)]
    rfl

/-- A rendered token reads back as its value, up to the next non-digit. -/
theorem teReadInt_teDecimal (t : Int32) {c : Char} (r : List Char) (hc : c.isDigit = false) :
    teReadInt (teDecimal t ++ c :: r) = some (t.toInt, c :: r) := by
  have hr : ∀ x ∈ (c :: r).head?, x.isDigit = false := by simpa using hc
  cases h : t.toInt with
  | ofNat m =>
    obtain ⟨D, hD, hne, hdig, hval⟩ := toDigitsCore_digits (m + 1) m [] (by omega)
    have ht : teDecimal t = D := by rw [teDecimal, h, List.append_nil] at *; exact hD
    obtain ⟨d, D, rfl⟩ := List.exists_cons_of_ne_nil hne
    have hd := hdig d (List.mem_cons_self _ _)
    have hminus : d ≠ '-' := by rintro rfl; exact absurd hd (by decide)
    simp only [teReadInt, ht, List.cons_append, List.head?_cons, Option.some.injEq, hminus,
      if_false, Option.map_some', hd, if_true]
    rw [← List.cons_append, teReadNat_append 0 hdig hr, hval]
    rfl
  | negSucc m =>
    obtain ⟨D, hD, hne, hdig, hval⟩ := toDigitsCore_digits (m + 2) (m + 1) [] (by omega)
    have ht : teDecimal t = '-' :: D := by rw [teDecimal, h, List.append_nil] at *; rw [← hD]; rfl
    obtain ⟨d, D, rfl⟩ := List.exists_cons_of_ne_nil hne
    simp only [teReadInt, ht, List.cons_append, List.head?_cons, if_true, List.tail_cons,
      Option.map_some', hdig d (List.mem_cons_self _ _)]
    rw [← List.cons_append, teReadNat_append 0 hdig hr, hval]
    rfl

theorem teDecimal_ne_nil (t : Int32) : teDecimal t ≠ [] := by
  cases h : t.toInt with
  | ofNat m =>
    obtain ⟨D, hD, hne, -⟩ := toDigitsCore_digits (m + 1) m [] (by omega)
    rw [teDecimal, h]
    show Nat.toDigitsCore 10 (m + 1) m [] ≠ []
    rw [hD, List.append_nil]
    exact hne
  | negSucc m => rw [teDecimal, h]; exact List.cons_ne_nil _ _

theorem length_le_length_teJsonItems (ts : List Int32) : ts.length ≤ (teJsonItems ts).length := by
  induction ts with
  | nil => rfl
  | cons a ts ih =>
    have := List.length_pos.2 (teDecimal_ne_nil a)
    cases ts with
    | nil => simpa [teJsonItems] using this
    | cons b ts => simp only [teJsonItems, List.length_append, List.length_cons] at ih ⊢; omega

theorem teReadItems_teJsonItems {ts : List Int32} (hts : ts ≠ []) {fuel : Nat}
    (hf : ts.length ≤ fuel) :
    teReadItems fuel (teJsonItems ts ++ "]\x7d".toList) =
      some (ts.map BitVec.toInt, "]\x7d".toList) := by
  induction ts generalizing fuel with
  | nil => exact absurd rfl hts
  | cons t ts ih =>
    obtain ⟨f, rfl⟩ : ∃ f, fuel = f + 1 := ⟨fuel - 1, by simp at hf; omega⟩
    cases ts with
    | nil =>
      simp only [teJsonItems, teReadItems, List.map_cons, List.map_nil]
      rw [show "]\x7d".toList = ']' :: ['\x7d'] from rfl, teReadInt_teDecimal t _ (by decide)]
      rfl
    | cons b ts =>
      simp only [teJsonItems, teReadItems, List.append_assoc, List.cons_append, List.map_cons]
      rw [teReadInt_teDecimal t _ (by decide)]
      simp only [Option.some_bind]
      rw [show teJsonItems (b :: ts) ++ "]\x7d".toList = _ from rfl, ih (List.cons_ne_nil _ _)
        (by simp at hf ⊢; omega)]
      rfl

theorem ofInt_toInt (t : Int32) : BitVec.ofInt 32 t.toInt = t := by
  apply BitVec.eq_of_toInt_eq
  rw [BitVec.toInt_ofInt, BitVec.toInt_eq_toNat_bmod, Int.bmod_bmod]

/-- The reader inverts the exported text. -/
theorem teJsonParse_teJsonText (ts : List Int32) : teJsonParse (teJsonText ts) = some ts := by
  rw [teJsonText, List.append_assoc]
  simp only [teJsonParse, List.take_left, List.drop_left, ne_eq, not_true_eq_false, if_false]
  by_cases hts : ts = []
  · subst hts; rfl
  · have hlen := length_le_length_teJsonItems ts
    have hpos := List.length_pos.2 hts
    have hne : teJsonItems ts ++ "]\x7d".toList ≠ "]\x7d".toList := fun h => by
      have := congrArg List.length h
      rw [List.length_append] at this
      omega
    rw [if_neg hne, teReadItems_teJsonItems hts (by rw [List.length_append]; omega)]
    simp [List.map_map, Function.comp_def, ofInt_toInt]

/-! ### The export -/

/-- `te_export_json` with room for `32 + 12·n` characters, `n` the token count: after the header
and after each token the `int` offset is the length printed so far and lies inside the buffer;
the call returns `TE_OK` with `*buf_size` the length of `{"tokens":[d_0,…,d_{n-1}]}`, the
buffer holds exactly that text and its `NUL`, and reading the text back gives the tokens. -/
theorem teExportJson_sufficient (ctx : TeContext) (buf : List Char)
    (hn : ctx.nTokens ≤ ctx.tokens.length) (hint : 12 * ctx.nTokens + 32 ≤ 2 ^ 31 - 1)
    (hbuf : 32 + 12 * ctx.nTokens ≤ buf.length) (hsz : buf.length < 2 ^ 64) :
    (∀ k ≤ ctx.nTokens, ∃ acc,
      ((teJsonPrint buf.length (buf, 0) "\x7b\"tokens\":[".toList).bind fun a =>
        (List.range k).foldlM (teJsonItem buf.length ctx.tokens) a) = some acc ∧
      acc.2.toInt = ("\x7b\"tokens\":[".toList ++ teJsonItems (ctx.view.take k)).length ∧
      acc.2.toInt < buf.length) ∧
    ∃ buf', teExportJson ctx buf = some (.ok, buf', (teJsonText ctx.view).length) ∧
      (teJsonText ctx.view).length < buf.length ∧
      buf'.take (teJsonText ctx.view).length = teJsonText ctx.view ∧
      buf'[(teJsonText ctx.view).length]? = some (Char.ofNat 0) ∧
      teJsonParse (buf'.take (teJsonText ctx.view).length) = some ctx.view := by
  have hview : ∀ k ≤ ctx.nTokens, ctx.view.take k = ctx.tokens.take k := fun k hk => by
    rw [TeContext.view, List.take_take, Nat.min_eq_left hk]
  have hpre : "\x7b\"tokens\":[".toList.length = 11 := rfl
  have hpost : "]\x7d".toList.length = 2 := rfl
  obtain ⟨acc0, h0, hp0, -⟩ := (JsonPrinted.init buf).print (s := "\x7b\"tokens\":[".toList)
    (by rw [List.length_nil, hpre]; omega) (by rw [List.length_nil, hpre]; omega) hsz
  have hloop := teJsonItem_foldlM hn hpre hbuf hint hsz (hp0.congr (List.nil_append _))
  have hlen : (teJsonText ctx.view).length ≤ 13 + 12 * ctx.nTokens := by
    have := length_teJsonItems_le ctx.view
    have hv : ctx.view.length = ctx.nTokens := by
      rw [TeContext.view, List.length_take, Nat.min_eq_left hn]
    simp only [teJsonText, List.length_append, hpre, hpost]
    omega
  obtain ⟨accN, hN, hpN⟩ := hloop ctx.nTokens le_rfl
  replace hpN : JsonPrinted buf ("\x7b\"tokens\":[".toList ++ teJsonItems ctx.view) accN := hpN
  obtain ⟨accF, hF, hpF, hnul⟩ := hpN.print (s := "]\x7d".toList)
    (by simp only [teJsonText, List.length_append] at hlen ⊢; rw [hpost]; omega)
    (by simp only [teJsonText, List.length_append] at hlen ⊢; rw [hpost]; omega) hsz
  have htext : ("\x7b\"tokens\":[".toList ++ teJsonItems ctx.view) ++ "]\x7d".toList =
      teJsonText ctx.view := rfl
  rw [htext] at hpF hnul
  refine ⟨fun k hk => ?_, accF.1, ?_, by omega, hpF.text, hnul, ?_⟩
  · obtain ⟨acc, h, hp⟩ := hloop k hk
    have hk' := length_teJsonItems_le (ctx.tokens.take k)
    rw [List.length_take, Nat.min_eq_left (by omega)] at hk'
    refine ⟨acc, by rw [h0, Option.some_bind, h], by rw [hp.offset, toInt_toPos hp.fits, hview k hk],
      ?_⟩
    rw [hp.offset, toInt_toPos hp.fits]
    simp only [List.length_append, hpre] at hk' ⊢
    omega
  · have hoff : toSizeT accF.2.toInt = (teJsonText ctx.view).length := by
      rw [hpF.offset, toInt_toPos hpF.fits]; unfold toSizeT; omega
    rw [teExportJson, if_neg (by omega)]
    simp only [h0, hN, hF, hoff, Option.bind_eq_bind, Option.some_bind]
  · rw [hpF.text]; exact teJsonParse_teJsonText _

theorem teExportJson_sufficient_one : ∃ ctx : TeContext, ctx.view = [5] ∧
    ∃ buf', teExportJson ctx (List.replicate 44 ' ') = some (.ok, buf', (teJsonText [5]).length) ∧
      buf'.take (teJsonText [5]).length = teJsonText [5] :=
  let ctx : TeContext :=
    { llamaCtx := ⟨[], []⟩, tokens := [5], tokenInfo := [], nTokens := 1, capacity := 1
      history := [], historyTail := none, redoStack := [], historyLimit := 0
      activeSequences := [], nSequences := 0, readonly := false, kvCacheDirty := false
      logitsValid := false, suppressHistory := false, mallocFails := [] }
  have h := (teExportJson_sufficient ctx (List.replicate 44 ' ') (by decide) (by decide) (by decide)
    (by decide)).2
  ⟨ctx, rfl, h.imp fun _ h => ⟨h.1, h.2.2.1⟩⟩

end TokenEditor
