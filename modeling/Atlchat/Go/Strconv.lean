import Atlchat.Go.Strings

/-!
# `strconv.ParseUint`

`NewUserMsgCommand` reads the mode of `USER` with
`strconv.ParseUint(args[1], 10, 8)`. Go reads the digits into a `uint64` one
at a time and guards both steps of `n = n*base + d` against overflow: `n`
must be below `cutoff`, the least value whose product with `base` passes
`maxUint64`, and `n + d` is flagged when it wraps around (`n1 < n`) or passes
`maxVal`. `Strconv.parseUint`, the model the command calls, says only what
these guards compute: the value of a numeral, when it fits in `bitSize` bits.

* `parseUintLoop_eq_ok_iff`: in any base from 2 to 36, the loop returns `n`
  with no error exactly when every byte is a digit below the base and the
  value of the digits is `n`, at most `maxVal`: no overflow of the `uint64`
  goes unnoticed, and no value that fits is refused;
* `parseUintDecimal_eq_ok_iff`: so `ParseUint(s, 10, bitSize)`, for
  `0 < bitSize ≤ 64`, succeeds with `n` exactly when `parseUint s bitSize` is
  the value of `n`.
-/

namespace Go

namespace Strconv

/-- The errors of `ParseUint`, by their `Err`: `ErrSyntax`, `ErrRange`, and
    the error of a `bitSize` past 64. -/
inductive NumError where
  | errSyntax
  | errRange
  | bitSizeError
  deriving DecidableEq, Repr

/-- `lower(c)`: `c | ('x' - 'X')`, the lower case of an ASCII letter. -/
def lower (c : UInt8) : UInt8 := c ||| 0x20

/-- The digit a byte stands for in the loop of `ParseUint`: `'0'..'9'`, then
    `'a'..'z'` in either case as `10..35`. -/
def digitValue (c : UInt8) : Option UInt8 :=
  if 0x30 ≤ c ∧ c ≤ 0x39 then some (c - 0x30)
  else if 0x61 ≤ lower c ∧ lower c ≤ 0x7A then some (lower c - 0x61 + 10)
  else none

/-- `for _, c := range []byte(s)` in `ParseUint`, from the value `n` read so
    far, for a `base` other than 0 (where `_` would separate digits): a byte
    that is no digit below `base` is a syntax error; `n ≥ cutoff` would
    overflow `n * base`, and `n1 < n` is the wrap-around of `n + d`; those, and
    a value past `maxVal`, are range errors, which return `maxVal`. -/
def parseUintLoop (base : Nat) (cutoff maxVal : UInt64) : UInt64 → Bytes → UInt64 × Option NumError
  | n, [] => (n, none)
  | n, c :: s =>
    match digitValue c with
    | none => (0, some .errSyntax)
    | some d =>
      if base.toUInt8 ≤ d then (0, some .errSyntax)
      else if cutoff ≤ n then (maxVal, some .errRange)
      else
        let n := n * base.toUInt64
        let n1 := n + d.toUInt64
        if n1 < n ∨ maxVal < n1 then (maxVal, some .errRange)
        else parseUintLoop base cutoff maxVal n1 s

/-- Go's `x << k` on a `uint64`: `0` once `k` reaches the width (Lean's
    `<<<` takes `k` modulo 64). -/
def shiftLeft64 (x : UInt64) (k : Nat) : UInt64 := if k < 64 then x <<< k.toUInt64 else 0

/-- `strconv.ParseUint(s, 10, bitSize)`, as `NewUserMsgCommand` calls it: the
    value read and the error, `maxVal = 1<<bitSize - 1` on a range error. -/
def parseUintDecimal (s : Bytes) (bitSize : Nat) : UInt64 × Option NumError :=
  if s = [] then (0, some .errSyntax)
  else
    let bitSize := if bitSize = 0 then 64 else bitSize
    if 64 < bitSize then (0, some .bitSizeError)
    else
      -- `switch base { case 10: cutoff = maxUint64/10 + 1 }`
      let cutoff : UInt64 := 0xFFFFFFFFFFFFFFFF / 10 + 1
      let maxVal := shiftLeft64 1 bitSize - 1
      parseUintLoop 10 cutoff maxVal 0 s

/-- `strconv.ParseUint(s, 10, bitSize)` as the value `NewUserMsgCommand` reads,
    its error as `none`: the value of a non-empty string of decimal digits, when
    it fits in `bitSize` bits. -/
def parseUint (s : Bytes) (bitSize : Nat) : Option Nat :=
  if s ≠ [] ∧ s.all (fun c => 0x30 ≤ c ∧ c ≤ 0x39) then
    let n := s.foldl (fun n c => 10 * n + (c.toNat - 0x30)) 0
    if n < 1 <<< bitSize then some n else none
  else none

/-- The value of the digits of `s` after the value `n` in base `base`, when
    every byte is a digit below `base`: what the loop computes where no
    `uint64` bounds it. -/
def digitsValue (base n : Nat) : Bytes → Option Nat
  | [] => some n
  | c :: s =>
    match digitValue c with
    | some d => if d.toNat < base then digitsValue base (n * base + d.toNat) s else none
    | none => none

/-! ## `uint64` arithmetic on the values -/

theorem toNat_mul_uint64 (a b : UInt64) : (a * b).toNat = a.toNat * b.toNat % UInt64.size := rfl

theorem toNat_add_uint64 (a b : UInt64) : (a + b).toNat = (a.toNat + b.toNat) % UInt64.size := rfl

theorem toNat_add_uint8 (a b : UInt8) : (a + b).toNat = (a.toNat + b.toNat) % 256 := rfl

theorem lt_iff_uint64 (a b : UInt64) : a < b ↔ a.toNat < b.toNat := Iff.rfl

theorem le_iff_uint64 (a b : UInt64) : a ≤ b ↔ a.toNat ≤ b.toNat := Iff.rfl

theorem toNat_toUInt64 {n : Nat} (h : n < UInt64.size) : n.toUInt64.toNat = n := Nat.mod_eq_of_lt h

theorem cutoff_toNat {base : Nat} (hb : 2 ≤ base ∧ base ≤ 36) :
    (0xFFFFFFFFFFFFFFFF / base.toUInt64 + 1 : UInt64).toNat = 0xFFFFFFFFFFFFFFFF / base + 1 := by
  rw [toNat_add_uint64, UInt64.toNat_div, toNat_toUInt64 (by unfold UInt64.size; omega)]
  show (0xFFFFFFFFFFFFFFFF / base + 1) % UInt64.size = _
  have := Nat.div_lt_self (show 0 < 0xFFFFFFFFFFFFFFFF by decide) (show 1 < base by omega)
  exact Nat.mod_eq_of_lt (by unfold UInt64.size; omega)

/-- `uint64(1)<<uint(bitSize) - 1`, for every `bitSize` from 1 to 64. -/
theorem maxVal_toNat : ∀ k < 65, 0 < k → (shiftLeft64 1 k - 1).toNat = (1 <<< k) - 1 := by decide

/-! ## The loop -/

/-- The value of the digits only grows. -/
theorem le_digitsValue {base n v : Nat} (hb : 0 < base) {s : Bytes} (h : digitsValue base n s = some v) :
    n ≤ v := by
  induction s generalizing n with
  | nil => simp only [digitsValue, Option.some.injEq] at h; omega
  | cons c s ih =>
    simp only [digitsValue] at h
    split at h
    · split_ifs at h
      exact (Nat.le_mul_of_pos_right n hb).trans ((Nat.le_add_right _ _).trans (ih h))
    · cases h

/-- The loop of `ParseUint`, in a base from 2 to 36 and from a value within
    `maxVal`, returns `m` with no error exactly when the digits have the value
    `m` and it is at most `maxVal`. -/
theorem parseUintLoop_eq_ok_iff {base : Nat} (hb : 2 ≤ base ∧ base ≤ 36) {maxVal : UInt64} (s : Bytes)
    {n : UInt64} (hn : n.toNat ≤ maxVal.toNat) (m : UInt64) :
    parseUintLoop base (0xFFFFFFFFFFFFFFFF / base.toUInt64 + 1) maxVal n s = (m, none) ↔
      digitsValue base n.toNat s = some m.toNat ∧ m.toNat ≤ maxVal.toNat := by
  induction s generalizing n with
  | nil =>
    simp only [parseUintLoop, digitsValue, Prod.mk.injEq, and_true, Option.some.injEq]
    exact ⟨fun h => h ▸ ⟨rfl, hn⟩, fun h => UInt64.toNat.inj h.1⟩
  | cons c s ih =>
    have hmax := maxVal.toNat_lt_size
    have hsize : UInt64.size = 0xFFFFFFFFFFFFFFFF + 1 := rfl
    simp only [parseUintLoop, digitsValue]
    cases hd : digitValue c with
    | none => simp
    | some d =>
      have hbase : base ≤ d.toNat ↔ base.toUInt8 ≤ d := by
        rw [UInt8.le_def]; show _ ↔ base % 256 ≤ d.toNat; rw [Nat.mod_eq_of_lt (by omega)]
      by_cases hbd : base.toUInt8 ≤ d
      · simp [hbd, Nat.not_lt.2 (hbase.2 hbd)]
      simp only [hbd, if_false, Nat.not_le.1 (mt hbase.1 hbd), if_true]
      by_cases hcut : 0xFFFFFFFFFFFFFFFF / base.toUInt64 + 1 ≤ n
      · -- `n * base` would pass `maxUint64`, so the value passes `maxVal`
        simp only [hcut, if_true, Prod.mk.injEq, reduceCtorEq, and_false, false_iff, not_and]
        intro hv hm
        rw [le_iff_uint64, cutoff_toNat hb] at hcut
        have := le_digitsValue (by omega) hv
        have := (Nat.div_lt_iff_lt_mul (by omega)).1 (Nat.lt_of_succ_le hcut)
        omega
      simp only [hcut, if_false]
      rw [le_iff_uint64, cutoff_toNat hb, Nat.not_le, Nat.lt_succ_iff,
        Nat.le_div_iff_mul_le (by omega)] at hcut
      have hmul : (n * base.toUInt64).toNat = n.toNat * base := by
        rw [toNat_mul_uint64, toNat_toUInt64 (by rw [hsize]; omega), Nat.mod_eq_of_lt (by rw [hsize]; omega)]
      have hn1 : (n * base.toUInt64 + d.toUInt64).toNat = (n.toNat * base + d.toNat) % UInt64.size := by
        rw [toNat_add_uint64, hmul]; rfl
      have hd8 : d.toNat < 256 := d.toNat_lt_size
      by_cases hov : n * base.toUInt64 + d.toUInt64 < n * base.toUInt64 ∨
          maxVal < n * base.toUInt64 + d.toUInt64
      · -- `n * base + d` wraps around or passes `maxVal`, and so does the value
        simp only [hov, if_true, Prod.mk.injEq, reduceCtorEq, and_false, false_iff, not_and]
        intro hv hm
        have := le_digitsValue (by omega) hv
        rw [lt_iff_uint64, lt_iff_uint64, hn1, hmul, hsize] at hov
        generalize n.toNat * base = P at *
        omega
      · rw [if_neg hov]
        have hno : n.toNat * base + d.toNat ≤ maxVal.toNat := by
          rw [lt_iff_uint64, lt_iff_uint64, hn1, hmul, hsize] at hov
          generalize n.toNat * base = P at *
          omega
        rw [ih (by rw [hn1, hsize]; omega), hn1, Nat.mod_eq_of_lt (by rw [hsize]; omega)]

/-! ## Base 10 -/

/-- In base 10 the digits are `'0'..'9'`: a letter reads as 10 or more. -/
theorem digitValue_ten (c : UInt8) :
    (match digitValue c with | some d => if d.toNat < 10 then some d.toNat else none | none => none) =
      if 0x30 ≤ c ∧ c ≤ 0x39 then some (c.toNat - 0x30) else none := by
  unfold digitValue
  by_cases h1 : 0x30 ≤ c ∧ c ≤ 0x39
  · have : (c - 0x30).toNat = c.toNat - 0x30 := UInt8.toNat_sub_of_le _ _ h1.1
    have h' : c.toNat ≤ 0x39 := h1.2
    simp only [if_pos h1, this, if_pos (show c.toNat - 0x30 < 10 by omega)]
  · rw [if_neg h1, if_neg h1]
    split_ifs with h2
    · have hl : 0x61 ≤ (lower c).toNat ∧ (lower c).toNat ≤ 0x7A := h2
      have : (lower c - 0x61 + 10).toNat = (lower c).toNat - 0x61 + 10 := by
        rw [toNat_add_uint8, UInt8.toNat_sub_of_le _ _ h2.1]
        show ((lower c).toNat - 0x61 + 10) % 256 = _
        omega
      simp only [this, if_neg (show ¬ ((lower c).toNat - 0x61 + 10 < 10) by omega)]
    · rfl

/-- In base 10, the value of the digits is the fold `parseUint` makes over a
    string of decimal digits. -/
theorem digitsValue_ten (n : Nat) (s : Bytes) :
    digitsValue 10 n s = if s.all (fun c => 0x30 ≤ c ∧ c ≤ 0x39) then
      some (s.foldl (fun n c => 10 * n + (c.toNat - 0x30)) n) else none := by
  induction s generalizing n with
  | nil => rfl
  | cons c s ih =>
    have h := digitValue_ten c
    simp only [digitsValue, List.all_cons, List.foldl_cons]
    cases hd : digitValue c with
    | none =>
      have hc : ¬ (0x30 ≤ c ∧ c ≤ 0x39) := fun hc => by simp [hd, hc] at h
      simp [hc]
    | some d =>
      simp only [hd] at h
      dsimp only
      by_cases hc : 0x30 ≤ c ∧ c ≤ 0x39
      · rw [if_pos hc] at h
        split_ifs at h with hd10
        rw [if_pos hd10, ih, Option.some.inj h, Nat.mul_comm]
        simp [hc]
      · rw [if_neg hc] at h
        split_ifs at h with hd10
        simp [hd10, hc]

/-- What `parseUint` accepts fits in `bitSize` bits. -/
theorem parseUint_lt {s : Bytes} {bitSize k : Nat} (h : parseUint s bitSize = some k) : k < 1 <<< bitSize := by
  unfold parseUint at h
  dsimp only at h
  split_ifs at h with _ hlt
  exact Option.some.inj h ▸ hlt

/-- `ParseUint(s, 10, bitSize)`, for `0 < bitSize ≤ 64`, succeeds with `n`
    exactly when `parseUint s bitSize` is the value of `n`: its `uint64`
    guards refuse exactly the numerals that do not fit. -/
theorem parseUintDecimal_eq_ok_iff (s : Bytes) {bitSize : Nat} (hbits : 0 < bitSize ∧ bitSize ≤ 64)
    (n : UInt64) : parseUintDecimal s bitSize = (n, none) ↔ parseUint s bitSize = some n.toNat := by
  rcases s with _ | ⟨c, s⟩
  · simp [parseUintDecimal, parseUint]
  have hmax := maxVal_toNat bitSize (by omega) hbits.1
  have hpos : 0 < 1 <<< bitSize := by rw [Nat.shiftLeft_eq, Nat.one_mul]; exact Nat.two_pow_pos bitSize
  simp only [parseUintDecimal, parseUint, reduceCtorEq, if_false, ne_eq, not_false_eq_true, true_and,
    if_neg (show bitSize ≠ 0 by omega), if_neg (show ¬ 64 < bitSize by omega)]
  rw [show (0xFFFFFFFFFFFFFFFF / 10 + 1 : UInt64) = 0xFFFFFFFFFFFFFFFF / (10 : Nat).toUInt64 + 1 from rfl,
    parseUintLoop_eq_ok_iff (by decide) _ (Nat.zero_le _) n, digitsValue_ten, hmax]
  split_ifs with hall hlt
  · simp only [Option.some.injEq, UInt64.toNat_zero]; omega
  · simp only [Option.some.injEq, UInt64.toNat_zero, reduceCtorEq, iff_false, not_and]; omega
  · simp

/-- A value past `maxVal` returns `maxVal` with a range error. -/
example : parseUintDecimal (ascii "256") 8 = (0xFF, some .errRange) := by decide

/-- The numeral past `maxUint64` wraps around in `n + d`, which the guard
    `n1 < n` catches. -/
example : parseUintDecimal (ascii "18446744073709551616") 64 = (0xFFFFFFFFFFFFFFFF, some .errRange) := by
  decide

end Strconv

end Go
