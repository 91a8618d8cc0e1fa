import Atlchat.Go.Strings
import Mathlib.Data.List.Basic

/-!
# `strings.Split` and `strings.SplitN`

`NewJoinCommand`, `NewPartCommand` and `NewWhoisCommand` cut their comma lists
with `strings.Split`, and `parseArg` cuts a line at its first space with
`strings.SplitN(line, " ", 2)`. Both are `genSplit`. It first fixes the number
of pieces: `Count(s, sep) + 1` for `Split`, at most `len(s) + 1` in any case.
It makes a slice of that many, and fills it by cutting at `Index(s, sep)`
until one piece is left to write or no separator is; the rest of `s` is the
last piece. `Strings.split` and `Strings.splitN`, what the commands call, say
what this computes one piece at a time.

* `genSplit_eq`: `genSplit` computes `split` for a negative `n` and `splitN`
  otherwise, and never panics: the count made first leaves room for every
  piece, so every write into the slice and the final reslice are in range;
* `split_eq_iff`: the pieces of `split s sep` are the one non-empty list of
  pieces without a separator that `strings.Join` puts back together into `s`.
-/

namespace Go

namespace Strings

/-- `strings.Index(s, sep)` for a one-byte `sep`: where its first occurrence
    starts, or `-1`. -/
def index (s : Bytes) (sep : UInt8) : Int := if sep ∈ s then s.indexOf sep else -1

/-- `strings.Count(s, sep)` for a one-byte `sep`. -/
def count (s : Bytes) (sep : UInt8) : Nat := s.count sep

/-- `a[i] = x` on a slice: the slice written, or `none` for the run-time panic
    of an index out of range. -/
def setIndex (a : List Bytes) (i : Nat) (x : Bytes) : Option (List Bytes) :=
  if i < a.length then some (a.set i x) else none

/-- `a[:j]` on a slice as long as its capacity: its first `j` entries, or `none`
    for the run-time panic of `j` past the capacity. -/
def sliceTo (a : List Bytes) (j : Nat) : Option (List Bytes) :=
  if j ≤ a.length then some (a.take j) else none

/-- The loop of `genSplit`, at index `i` of the slice `a`: while `i < n` and a
    separator is left, `a[i] = s[:m+sepSave]` and `s = s[m+len(sep):]`. It
    returns the slice, the index reached and what is left of `s`, or `none`
    for a write out of range. -/
def genSplitLoop (sep : UInt8) (sepSave n : Nat) (a : List Bytes) (i : Nat) (s : Bytes) :
    Option (List Bytes × Nat × Bytes) :=
  if i < n then
    let m := index s sep
    if m < 0 then some (a, i, s)
    else do
      let a ← setIndex a i (s.take (m.toNat + sepSave))
      genSplitLoop sep sepSave n a (i + 1) (s.drop (m.toNat + 1))
  else some (a, i, s)
termination_by n - i

/-- The end of `genSplit`, after its loop: `a[i] = s`, and the result is
    `a[:i+1]`. -/
def genSplitLast : List Bytes × Nat × Bytes → Option (List Bytes)
  | (a, i, s) => do sliceTo (← setIndex a i s) (i + 1)

/-- `genSplit(s, sep, sepSave, n)` for a one-byte `sep`, so never the
    `explode` of an empty one, or `none` for a panic. `Split(s, sep)` is
    `genSplit(s, sep, 0, -1)` and `SplitN(s, sep, n)` is
    `genSplit(s, sep, 0, n)`. The slice has `n` entries and the loop cuts at
    most `n - 1` pieces. -/
def genSplit (s : Bytes) (sep : UInt8) (sepSave : Nat) (n : Int) : Option (List Bytes) :=
  if n = 0 then some []
  else
    let n := if n < 0 then (count s sep : Int) + 1 else n
    let n := if n > s.length + 1 then (s.length : Int) + 1 else n
    genSplitLoop sep sepSave (n.toNat - 1) (List.replicate n.toNat []) 0 s >>= genSplitLast

/-! ## `Split` and `Join` -/

theorem split_eq_splitOn (s : Bytes) (sep : UInt8) : split s sep = s.splitOn sep := by
  induction s with
  | nil => rfl
  | cons b s ih => simp only [split, ih, List.splitOn, List.splitOnP_cons, beq_iff_eq]

/-- Cut at the first separator. -/
theorem split_append {w : Bytes} {sep : UInt8} (hw : sep ∉ w) (r : Bytes) :
    split (w ++ sep :: r) sep = w :: split r sep := by
  rw [split_eq_splitOn, split_eq_splitOn]
  exact List.splitOnP_first (· == sep) w (fun x hx h => hw (eq_of_beq h ▸ hx)) sep (beq_self_eq_true sep) r

/-- With no separator, there is one piece. -/
theorem split_of_not_mem {w : Bytes} {sep : UInt8} (hw : sep ∉ w) : split w sep = [w] := by
  rw [split_eq_splitOn]
  exact List.splitOnP_eq_single (· == sep) w fun x hx h => hw (eq_of_beq h ▸ hx)

theorem split_ne_nil (s : Bytes) (sep : UInt8) : split s sep ≠ [] := by
  rw [split_eq_splitOn]
  exact List.splitOnP_ne_nil _ s

/-- No piece holds the separator. -/
theorem not_mem_of_mem_split (sep : UInt8) (s : Bytes) : ∀ {w : Bytes}, w ∈ split s sep → sep ∉ w := by
  induction s with
  | nil =>
    intro w hw
    rw [split, List.mem_singleton] at hw
    exact hw ▸ List.not_mem_nil sep
  | cons b s ih =>
    intro w hw
    rw [split] at hw
    split_ifs at hw with hb
    · rcases List.mem_cons.1 hw with rfl | hw
      · exact List.not_mem_nil sep
      · exact ih hw
    · -- `b` joins the first piece of the rest
      obtain ⟨v, t, ht⟩ := List.exists_cons_of_ne_nil (split_ne_nil s sep)
      rw [ht, List.modifyHead_cons, List.mem_cons] at hw
      rcases hw with rfl | hw
      · exact List.not_mem_cons_of_ne_of_not_mem (Ne.symm hb) (ih (ht ▸ List.mem_cons_self v t))
      · exact ih (ht ▸ List.mem_cons_of_mem v hw)

/-- `strings.Join(strings.Split(s, sep), sep)` is `s`. -/
theorem join_split (s : Bytes) (sep : UInt8) : join (split s sep) [sep] = s := by
  rw [split_eq_splitOn, join]
  exact List.intercalate_splitOn s sep

/-- `strings.Split(strings.Join(ws, sep), sep)` is `ws`, when there is a piece
    and none holds the separator. -/
theorem split_join {ws : List Bytes} {sep : UInt8} (hne : ws ≠ []) (hsep : ∀ w ∈ ws, sep ∉ w) :
    split (join ws [sep]) sep = ws := by
  rw [split_eq_splitOn, join]
  exact List.splitOn_intercalate ws sep hsep hne

/-- The pieces of `strings.Split(s, sep)` are the one non-empty list of pieces
    without a separator that `strings.Join` with the separator puts back
    together into `s`: no byte is lost or moved, and no other cut gives `s`. -/
theorem split_eq_iff (s : Bytes) (sep : UInt8) (ws : List Bytes) :
    split s sep = ws ↔ ws ≠ [] ∧ (∀ w ∈ ws, sep ∉ w) ∧ join ws [sep] = s := by
  constructor
  · rintro rfl
    exact ⟨split_ne_nil s sep, fun w => not_mem_of_mem_split sep s, join_split s sep⟩
  · rintro ⟨hne, hsep, rfl⟩
    exact split_join hne hsep

/-- With as many cuts allowed as there are separators, `SplitN` is `Split`. -/
theorem splitN_eq_split (sep : UInt8) {k : Nat} : ∀ (s : Bytes), count s sep ≤ k →
    splitN s sep (k + 1) = split s sep := by
  induction k with
  | zero =>
    intro s h
    have hs : sep ∉ s := List.count_eq_zero.1 (Nat.le_zero.1 h)
    rw [splitN_of_not_mem s sep 0 hs, split_of_not_mem hs]
  | succ k ih =>
    intro s h
    rcases splitN_two s sep with ⟨hs, -⟩ | ⟨w, r, rfl, hw, -⟩
    · rw [splitN_of_not_mem s sep (k + 1) hs, split_of_not_mem hs]
    · have hc : count (w ++ sep :: r) sep = count r sep + 1 := by
        simp [count, List.count_append, List.count_eq_zero.2 hw]
      rw [splitN_append w r sep k hw, split_append hw, ih r (by omega)]

/-! ## The loop of `genSplit` -/

theorem index_of_not_mem {s : Bytes} {sep : UInt8} (h : sep ∉ s) : index s sep = -1 := if_neg h

theorem index_append {w : Bytes} {sep : UInt8} (hw : sep ∉ w) (r : Bytes) :
    index (w ++ sep :: r) sep = w.length := by
  rw [index, if_pos (by simp), List.indexOf_append_of_not_mem hw, List.indexOf_cons_self]
  rfl

theorem setIndex_of_lt {a : List Bytes} {i : Nat} (hi : i < a.length) (x : Bytes) :
    setIndex a i x = some (a.set i x) :=
  if_pos hi

/-- Writing entry `i` and keeping the first `i + 1`. -/
theorem take_set_succ {a : List Bytes} {i : Nat} (hi : i < a.length) (x : Bytes) :
    (a.set i x).take (i + 1) = a.take i ++ [x] := by
  simp [List.set_eq_take_append_cons_drop, hi, List.take_append_eq_append_take, Nat.min_eq_left hi.le]

/-- The last write and the reslice, at an index inside the slice. -/
theorem genSplitLast_of_lt {a : List Bytes} {i : Nat} (hi : i < a.length) (s : Bytes) :
    genSplitLast (a, i, s) = some (a.take i ++ [s]) := by
  rw [genSplitLast, setIndex_of_lt hi, Option.bind_eq_bind, Option.some_bind, sliceTo, if_pos (by simpa using hi),
    take_set_succ hi]

/-- From index `i`, with `k` more cuts allowed and the slice long enough, the
    loop and the last write stay in the slice and leave the pieces of
    `SplitN(s, sep, k + 1)` after the first `i` entries. -/
theorem genSplitLoop_eq (sep : UInt8) (n k : Nat) : ∀ (a : List Bytes) (i : Nat) (s : Bytes),
    i + k = n → n < a.length →
      (genSplitLoop sep 0 n a i s >>= genSplitLast) = some (a.take i ++ splitN s sep (k + 1)) := by
  induction k with
  | zero =>
    intro a i s hik hn
    rw [genSplitLoop, if_neg (by omega), Option.bind_eq_bind, Option.some_bind]
    exact genSplitLast_of_lt (by omega) s
  | succ k ih =>
    intro a i s hik hn
    rw [genSplitLoop, if_pos (by omega)]
    dsimp only
    rcases splitN_two s sep with ⟨hs, -⟩ | ⟨w, r, rfl, hw, -⟩
    · -- no separator is left: `s` is the last piece
      rw [index_of_not_mem hs, if_pos (by decide), splitN_of_not_mem s sep (k + 1) hs, Option.bind_eq_bind, Option.some_bind]
      exact genSplitLast_of_lt (by omega) _
    · -- `a[i] = w`, and the loop goes on with `r`
      rw [index_append hw, if_neg (by omega), splitN_append w r sep k hw]
      have hw' : (w ++ sep :: r).take ((w.length : Int).toNat + 0) = w := by simp
      have hr : (w ++ sep :: r).drop ((w.length : Int).toNat + 1) = r := by simp
      rw [hw', hr, setIndex_of_lt (by omega)]
      simp only [Option.bind_eq_bind, Option.some_bind] at ih ⊢
      rw [ih _ _ r (by omega) (by simpa using hn), take_set_succ (by omega)]
      simp

/-- `genSplit(s, sep, 0, n)`, the loop over `Index` in a slice made to the
    size of `Count`, computes `Split` for a negative `n` and `SplitN`
    otherwise, and does not panic: every write `a[i]` and the reslice
    `a[:i+1]` stay inside the slice. -/
theorem genSplit_eq (s : Bytes) (sep : UInt8) (n : Int) :
    genSplit s sep 0 n = some (if n < 0 then split s sep else splitN s sep n.toNat) := by
  have hcount : count s sep ≤ s.length := List.count_le_length _ _
  have hloop : ∀ N : Nat, 0 < N →
      (genSplitLoop sep 0 (N - 1) (List.replicate N []) 0 s >>= genSplitLast) = some (splitN s sep N) :=
    fun N hN => by
      have := genSplitLoop_eq sep (N - 1) (N - 1) (List.replicate N []) 0 s (by omega)
        (by rw [List.length_replicate]; omega)
      rwa [List.take_zero, List.nil_append, Nat.sub_add_cancel hN] at this
  unfold genSplit
  by_cases h0 : n = 0
  · subst h0
    rfl
  rw [if_neg h0]
  by_cases hneg : n < 0
  · -- `n = Count(s, sep) + 1`, never past `len(s) + 1`
    simp only [if_pos hneg, if_neg (show ¬ ((count s sep : Int) + 1 > s.length + 1) by omega)]
    rw [show ((count s sep : Int) + 1).toNat = count s sep + 1 by omega, hloop _ (by omega),
      splitN_eq_split sep s le_rfl]
  · simp only [if_neg hneg]
    by_cases hbig : n > s.length + 1
    · -- more pieces asked than `s` can have: `SplitN` is then `Split`
      rw [if_pos hbig, show ((s.length : Int) + 1).toNat = s.length + 1 by omega, hloop _ (by omega),
        splitN_eq_split sep s hcount, show n.toNat = (n.toNat - 1) + 1 by omega,
        splitN_eq_split sep s (by omega)]
    · rw [if_neg hbig, hloop _ (by omega)]

end Strings

end Go
