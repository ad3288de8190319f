import Mathlib.Data.List.Basic
import Mathlib.Tactic.Common
import Mathlib.Tactic.Linarith
import Mathlib.Tactic.Ring

/-! C heap blocks and fixed-width integers. A block is the list of its slots, so an
index past its length is an access outside the allocation; the copies of `<string.h>`
return `none` there. -/
namespace TokenEditor

/-- `int32_t`: `te_pos_t`, `te_token_t`, `te_seq_id_t` and `llama_pos`. -/
abbrev Int32 := BitVec 32

/-- `(size_t)x` for a signed value. -/
def toSizeT (x : Int) : Nat := (x % 2^64).toNat

/-- `(te_pos_t)n` for an unsigned count. -/
def toPos (n : Nat) : Int32 := BitVec.ofNat 32 n

theorem toInt_bounds (x : Int32) : -2^31 ≤ x.toInt ∧ x.toInt < 2^31 := by
  rw [BitVec.toInt_eq_toNat_bmod]
  exact ⟨Int.le_bmod (by decide), Int.bmod_lt (by decide)⟩

theorem toInt_toPos {n : Nat} (h : n < 2^31) : (toPos n).toInt = n := by
  rw [toPos, BitVec.toInt_ofNat, Int.bmod_def]
  split <;> omega

theorem toInt_add_one {x : Int32} (h : x.toInt < 2^31 - 1) : (x + 1).toInt = x.toInt + 1 := by
  have := toInt_bounds x
  rw [BitVec.toInt_add, show (1 : Int32).toInt = 1 by decide, Int.bmod_def]
  split <;> omega

/-- The clamp `(size_t)end > n` of the range code: a negative end counts as huge. -/
theorem toSizeT_gt_iff (x : Int32) {n : Nat} (h : n < 2^63) :
    n < toSizeT x.toInt ↔ x.toInt < 0 ∨ n < x.toInt := by
  have := toInt_bounds x
  unfold toSizeT
  omega

theorem toSizeT_of_nonneg {x : Int32} (h : 0 ≤ x.toInt) : toSizeT x.toInt = x.toInt.toNat := by
  have := toInt_bounds x
  unfold toSizeT
  omega

variable {α : Type}

/-- `a[i .. i+n)` copied out of a block. -/
def blockRead (a : List α) (i n : Nat) : Option (List α) :=
  if i + n ≤ a.length then some ((a.drop i).take n) else none

/-- `memcpy(a + dst, src, src.length)`. -/
def blockWrite (a : List α) (dst : Nat) (src : List α) : Option (List α) :=
  if dst + src.length ≤ a.length then some (a.take dst ++ src ++ a.drop (dst + src.length))
  else none

/-- `memmove(a + dst, a + src, n)`: the source slice is read before it is written. -/
def blockMove (a : List α) (dst src n : Nat) : Option (List α) :=
  (blockRead a src n).bind (blockWrite a dst)

/-- `realloc(a, n)`: the first slots are kept; the model gives new slots the value `default`. -/
def blockResize [Inhabited α] (a : List α) (n : Nat) : List α :=
  a.take n ++ List.replicate (n - a.length) default

theorem blockRead_eq {a : List α} {i n : Nat} (h : i + n ≤ a.length) :
    blockRead a i n = some ((a.drop i).take n) := if_pos h

theorem length_blockRead {a l : List α} {i n : Nat} (h : blockRead a i n = some l) :
    l.length = n := by
  unfold blockRead at h
  split at h <;> simp only [Option.some.injEq, reduceCtorEq] at h
  subst h
  simp only [List.length_take, List.length_drop]
  omega

theorem getElem?_blockRead {a l : List α} {i n : Nat} (h : blockRead a i n = some l) (j : Nat) :
    l[j]? = if j < n then a[i + j]? else none := by
  unfold blockRead at h
  split at h <;> simp only [Option.some.injEq, reduceCtorEq] at h
  subst h
  simp only [List.getElem?_take, List.getElem?_drop]

theorem blockWrite_eq {a src : List α} {dst : Nat} (h : dst + src.length ≤ a.length) :
    blockWrite a dst src = some (a.take dst ++ src ++ a.drop (dst + src.length)) := if_pos h

theorem blockWrite_singleton {a : List α} {i : Nat} (x : α) (h : i < a.length) :
    blockWrite a i [x] = some (a.set i x) := by
  rw [blockWrite_eq (by rw [List.length_singleton]; omega), List.set_eq_take_append_cons_drop,
    if_pos h]
  simp

theorem blockWrite_isSome {a src : List α} {dst : Nat} :
    (blockWrite a dst src).isSome ↔ dst + src.length ≤ a.length := by
  unfold blockWrite
  split <;> simp_all

theorem length_blockWrite {a b src : List α} {dst : Nat} (h : blockWrite a dst src = some b) :
    b.length = a.length := by
  unfold blockWrite at h
  split at h <;> simp only [Option.some.injEq, reduceCtorEq] at h
  subst h
  simp only [List.length_append, List.length_take, List.length_drop]
  omega

/-- Pointwise reading of a write: the slots `[dst, dst + |src|)` hold `src`, the rest is kept. -/
theorem getElem?_blockWrite {a b src : List α} {dst : Nat} (h : blockWrite a dst src = some b)
    (i : Nat) :
    b[i]? = if dst ≤ i ∧ i < dst + src.length then src[i - dst]? else a[i]? := by
  unfold blockWrite at h
  split at h <;> simp only [Option.some.injEq, reduceCtorEq] at h
  subst h
  simp only [List.getElem?_append, List.length_append, List.length_take, List.getElem?_take,
    List.getElem?_drop]
  split_ifs <;> first | rfl | omega | (congr 1; omega)

theorem getElem?_blockMove {a b : List α} {dst src n : Nat} (h : blockMove a dst src n = some b)
    (i : Nat) :
    b[i]? = if dst ≤ i ∧ i < dst + n then a[src + (i - dst)]? else a[i]? := by
  obtain ⟨l, hl, hw⟩ := Option.bind_eq_some.mp h
  rw [getElem?_blockWrite hw, length_blockRead hl, getElem?_blockRead hl]
  split_ifs <;> first | rfl | omega

theorem length_blockMove {a b : List α} {dst src n : Nat} (h : blockMove a dst src n = some b) :
    b.length = a.length := by
  obtain ⟨l, -, hw⟩ := Option.bind_eq_some.mp h
  exact length_blockWrite hw

theorem blockMove_isSome {a : List α} {dst src n : Nat} :
    (blockMove a dst src n).isSome ↔ src + n ≤ a.length ∧ dst + n ≤ a.length := by
  unfold blockMove blockRead
  split
  · simp only [Option.some_bind, blockWrite_isSome, List.length_take, List.length_drop]
    constructor
    · intro h; omega
    · intro h; omega
  · simp_all

@[simp] theorem length_blockResize [Inhabited α] (a : List α) (n : Nat) :
    (blockResize a n).length = n := by
  simp only [blockResize, List.length_append, List.length_take, List.length_replicate]
  omega

theorem getElem?_blockResize [Inhabited α] {a : List α} {n i : Nat} (h : i < a.length)
    (hn : i < n) : (blockResize a n)[i]? = a[i]? := by
  rw [blockResize, List.getElem?_append_left (by simp only [List.length_take]; omega),
    List.getElem?_take, if_pos hn]

theorem take_blockResize [Inhabited α] {a : List α} {n m : Nat} (h : m ≤ a.length) (hn : m ≤ n) :
    (blockResize a n).take m = a.take m := by
  apply List.ext_getElem?
  intro i
  simp only [List.getElem?_take]
  split_ifs with hi
  · exact getElem?_blockResize (by omega) (by omega)
  · rfl

theorem blockWrite_nil {a : List α} {dst : Nat} (h : dst ≤ a.length) :
    blockWrite a dst [] = some a := by
  rw [blockWrite_eq (by simpa using h)]
  simp

theorem take_blockWrite_zero {a b src : List α} (h : blockWrite a 0 src = some b) :
    b.take src.length = src := by
  unfold blockWrite at h
  split at h <;> simp only [Option.some.injEq, reduceCtorEq] at h
  subst h
  simp

/-- The tail shift of the range mutators, `memmove(a + s + k, a + e, n - e)` under its guard,
succeeds when the shifted tail fits the block. -/
theorem shift_eq {a : List α} {n s e k : Nat} {c : Prop} [Decidable c] (hse : s ≤ e) (hen : e ≤ n)
    (hn : n ≤ a.length) (hfit : n - (e - s) + k ≤ a.length) (hc : c ↔ k ≠ e - s ∧ e < n) :
    ∃ a1, (if c then blockMove a (s + k) e (n - e) else pure a) = some a1 ∧ a1.length = a.length ∧
      ((k ≠ e - s ∧ e < n ∧ blockMove a (s + k) e (n - e) = some a1) ∨
        ((k = e - s ∨ e = n) ∧ a1 = a)) := by
  by_cases h : c
  · obtain ⟨a1, h1⟩ := Option.isSome_iff_exists.mp (blockMove_isSome.mpr (by omega) :
      (blockMove a (s + k) e (n - e)).isSome)
    exact ⟨a1, by rw [if_pos h, h1], length_blockMove h1, .inl ⟨(hc.mp h).1, (hc.mp h).2, h1⟩⟩
  · refine ⟨a, if_neg h, rfl, .inr ⟨?_, rfl⟩⟩
    rw [hc] at h
    omega

/-- The shift-then-copy of the range mutators: moving `a[e, n)` to `s + |ts|` (skipped when
the tail is already in place) and writing `ts` at `s` leaves `a[0, s) ++ ts ++ a[e, n)` in
front. -/
theorem take_shift_write {a b c t : List α} {n s e : Nat} (hse : s ≤ e) (hen : e ≤ n)
    (hn : n ≤ a.length) (h1 : (t.length ≠ e - s ∧ e < n ∧ blockMove a (s + t.length) e (n - e) = some b) ∨
      ((t.length = e - s ∨ e = n) ∧ b = a))
    (h2 : blockWrite b s t = some c) :
    c.take (n - (e - s) + t.length) = a.take s ++ t ++ (a.take n).drop e := by
  apply List.ext_getElem?
  intro i
  rw [List.getElem?_take, getElem?_blockWrite h2]
  simp only [List.getElem?_append, List.length_append, List.length_take, List.getElem?_take,
    List.getElem?_drop]
  rcases h1 with ⟨-, -, hm⟩ | ⟨hk, rfl⟩
  · rw [getElem?_blockMove hm]
    split_ifs <;> first | rfl | omega | (congr 1; omega)
  · split_ifs <;> first | rfl | omega | (congr 1; omega)

end TokenEditor
