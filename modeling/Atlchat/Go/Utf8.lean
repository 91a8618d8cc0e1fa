import Mathlib.Data.List.Basic

/-!
# UTF-8, as Go's `unicode/utf8` reads it

A Go `string` is a sequence of bytes, UTF-8 or not (`Bytes`). The package reads
it a rune at a time: `decodeRuneInString` decodes the rune at the front and
says how many bytes it took, and `runeCountInString` counts the runes of a
whole string by a loop of its own. Both read an invalid byte, or an
incomplete, overlong or surrogate sequence, as one `RuneError` of width one,
and both consult the package's tables `first` (what a first byte announces)
and `acceptRanges` (where the second byte of a sequence must lie).

* `toRunes`: the runes `for range s` visits, decoding from the front;
* `countWidth_eq`: at every position, the counting loop steps over as many
  bytes as the decoder reads;
* `runeCountInString_eq_length`: so it counts exactly the runes the decoding
  yields, on every byte string;
* `toRunes_append`: a string that decodes without `RuneError` decodes the same
  at the front of any other; an incomplete sequence at its end may not, as the
  bytes after it can complete it;
* `appendRune_decodeRuneInString`: `utf8.AppendRune` writes every rune the
  decoder reads without error back as the bytes it was read from, as the
  tables `first` and `acceptRanges` admit no overlong encoding, surrogate or
  rune past `MaxRune` (`first_lead`).
-/

namespace Go

/-- A Go `string`: its bytes, UTF-8 or not. -/
abbrev Bytes := List UInt8

/-- A Go `rune`, an `int32`: a code point, or any other value. -/
abbrev Rune := Int

/-- The bytes of an ASCII literal. -/
def ascii (s : String) : Bytes := s.toList.map fun c => c.toNat.toUInt8

namespace Utf8

/-- `utf8.RuneError`, U+FFFD. -/
def runeError : Rune := 0xFFFD

/-- `utf8.MaxRune`. -/
def maxRune : Rune := 0x10FFFF

/-- The table `first`: what a first byte announces. `0xF0` (`as`) an ASCII byte,
    `0xF1` (`xx`) an invalid one; otherwise the width of the sequence in the
    low nibble and the index of its entry of `acceptRanges` in the high one. -/
def first (b : UInt8) : UInt8 :=
  if b < 0x80 then 0xF0
  else if b < 0xC2 then 0xF1
  else if b < 0xE0 then 0x02
  else if b = 0xE0 then 0x13
  else if b < 0xED then 0x03
  else if b = 0xED then 0x23
  else if b < 0xF0 then 0x03
  else if b = 0xF0 then 0x34
  else if b < 0xF4 then 0x04
  else if b = 0xF4 then 0x44
  else 0xF1

/-- An entry of `acceptRanges`: where the second byte of a sequence must lie. -/
structure AcceptRange where
  lo : UInt8
  hi : UInt8

/-- The table `acceptRanges`, by the index in the high nibble of `first`. -/
def acceptRanges : Nat → AcceptRange
  | 1 => ⟨0xA0, 0xBF⟩
  | 2 => ⟨0x80, 0x9F⟩
  | 3 => ⟨0x90, 0xBF⟩
  | 4 => ⟨0x80, 0x8F⟩
  | _ => ⟨0x80, 0xBF⟩

/-- `b < accept.lo || accept.hi < b`: a second byte out of its range. -/
def AcceptRange.outside (accept : AcceptRange) (b : UInt8) : Bool :=
  b < accept.lo || accept.hi < b

/-- `b < locb || hicb < b`: a later byte that is no continuation byte. -/
def notCont (b : UInt8) : Bool := b < 0x80 || 0xBF < b

/-- `utf8.DecodeRuneInString(s)`: the rune at the front of `s` and its width;
    `(RuneError, 1)` where no valid sequence starts, `(RuneError, 0)` on the
    empty string. The branches on a list too short are not reached: the width
    check comes first. -/
def decodeRuneInString : Bytes → Rune × Nat
  | [] => (runeError, 0)
  | s0 :: t =>
    let x := first s0
    if 0xF0 ≤ x then
      -- the mask of the low bit of `x`: an ASCII byte is its own rune
      if x &&& 1 = 0 then ((s0.toNat : Rune), 1) else (runeError, 1)
    else
      let sz := (x &&& 7).toNat
      let accept := acceptRanges (x >>> 4).toNat
      if t.length + 1 < sz then (runeError, 1) else
      match t with
      | [] => (runeError, 1)
      | s1 :: t =>
        if accept.outside s1 then (runeError, 1)
        else if sz ≤ 2 then
          (((s0 &&& 0x1F).toNat <<< 6 ||| (s1 &&& 0x3F).toNat : Nat), 2)
        else match t with
        | [] => (runeError, 1)
        | s2 :: t =>
          if notCont s2 then (runeError, 1)
          else if sz ≤ 3 then
            (((s0 &&& 0x0F).toNat <<< 12 ||| (s1 &&& 0x3F).toNat <<< 6 |||
              (s2 &&& 0x3F).toNat : Nat), 3)
          else match t with
          | [] => (runeError, 1)
          | s3 :: _ =>
            if notCont s3 then (runeError, 1)
            else (((s0 &&& 0x07).toNat <<< 18 ||| (s1 &&& 0x3F).toNat <<< 12 |||
              (s2 &&& 0x3F).toNat <<< 6 ||| (s3 &&& 0x3F).toNat : Nat), 4)

/-- The step of the loop of `utf8.RuneCountInString` at a non-empty rest `s`:
    how far `i` advances, with the loop's checks in its order. -/
def countWidth : Bytes → Nat
  | [] => 0
  | c :: t =>
    if c < 0x80 then 1 else
    let x := first c
    if x = 0xF1 then 1 else
    let size := (x &&& 7).toNat
    if t.length + 1 < size then 1 else
    let accept := acceptRanges (x >>> 4).toNat
    match t with
    | [] => size
    | c1 :: t =>
      if accept.outside c1 then 1
      else if size = 2 then size
      else match t with
      | [] => size
      | c2 :: t =>
        if notCont c2 then 1
        else if size = 3 then size
        else match t with
        | [] => size
        | c3 :: _ => if notCont c3 then 1 else size

/-! ## The table `first` -/

/-- What `first` and `acceptRanges` admit after a byte neither ASCII nor
    invalid: the width of the sequence it starts, and a range for the second
    byte within the continuation bytes that excludes overlong encodings
    (`E0`, `F0`), surrogates (`ED`) and runes past `MaxRune` (`F4`). -/
theorem first_lead (b : UInt8) (ha : ¬ b < 0x80) (hx : first b ≠ 0xF1) :
    ¬ 0xF0 ≤ first b ∧ 0x80 ≤ (acceptRanges (first b >>> 4).toNat).lo.toNat ∧
      (acceptRanges (first b >>> 4).toNat).hi.toNat ≤ 0xBF ∧
    ((first b &&& 7).toNat = 2 ∧ 0xC2 ≤ b.toNat ∧ b.toNat ≤ 0xDF ∨
      (first b &&& 7).toNat = 3 ∧ 0xE0 ≤ b.toNat ∧ b.toNat ≤ 0xEF ∧
        (b.toNat = 0xE0 → 0xA0 ≤ (acceptRanges (first b >>> 4).toNat).lo.toNat) ∧
        (b.toNat = 0xED → (acceptRanges (first b >>> 4).toNat).hi.toNat ≤ 0x9F) ∨
      (first b &&& 7).toNat = 4 ∧ 0xF0 ≤ b.toNat ∧ b.toNat ≤ 0xF4 ∧
        (b.toNat = 0xF0 → 0x90 ≤ (acceptRanges (first b >>> 4).toNat).lo.toNat) ∧
        (b.toNat = 0xF4 → (acceptRanges (first b >>> 4).toNat).hi.toNat ≤ 0x8F)) := by
  obtain ⟨n⟩ := b
  revert n
  decide

/-- A byte neither ASCII nor invalid announces a sequence of two to four bytes. -/
theorem first_width (b : UInt8) (ha : ¬ b < 0x80) (hx : first b ≠ 0xF1) :
    ¬ 0xF0 ≤ first b ∧ 2 ≤ (first b &&& 7).toNat ∧ (first b &&& 7).toNat ≤ 4 := by
  obtain ⟨hlt, -, -, h⟩ := first_lead b ha hx
  exact ⟨hlt, by rcases h with ⟨h, -⟩ | ⟨h, -⟩ | ⟨h, -⟩ <;> omega⟩

theorem first_ascii (b : UInt8) (ha : b < 0x80) : 0xF0 ≤ first b ∧ first b &&& 1 = 0 := by
  rw [first, if_pos ha]
  decide

/-! ## One step of each loop -/

/-- The counting loop steps over exactly the bytes the decoder reads. -/
theorem countWidth_eq (c : UInt8) (t : Bytes) :
    countWidth (c :: t) = (decodeRuneInString (c :: t)).2 := by
  simp only [countWidth, decodeRuneInString]
  by_cases ha : c < 0x80
  · simp only [ha, first_ascii c ha, if_true]
  by_cases hx : first c = 0xF1
  · simp only [ha, hx, if_false, if_true, show (0xF0 : UInt8) ≤ 0xF1 by decide,
      show (0xF1 &&& 1 : UInt8) ≠ 0 by decide]
  obtain ⟨hlt, h2, h4⟩ := first_width c ha hx
  simp only [ha, hx, hlt, if_false]
  generalize (first c &&& 7).toNat = sz at *
  generalize acceptRanges _ = acc
  -- the two loops differ only in testing `sz ≤ 2` for `size = 2`, and so on
  obtain rfl | rfl | rfl : sz = 2 ∨ sz = 3 ∨ sz = 4 := by omega
  all_goals
    rcases t with _ | ⟨s1, _ | ⟨s2, _ | ⟨s3, t⟩⟩⟩ <;>
      simp only [List.length_cons, List.length_nil] <;>
      (try cases acc.outside s1) <;> (try cases notCont s2) <;> (try cases notCont s3) <;> rfl

/-- On a non-empty rest, the counting loop advances by one to the whole rest. -/
theorem countWidth_bounds (c : UInt8) (t : Bytes) :
    1 ≤ countWidth (c :: t) ∧ countWidth (c :: t) ≤ t.length + 1 := by
  simp only [countWidth]
  by_cases ha : c < 0x80
  · simp only [ha, if_true]; omega
  by_cases hx : first c = 0xF1
  · simp only [ha, hx, if_false, if_true]; omega
  obtain ⟨-, h2, h4⟩ := first_width c ha hx
  simp only [ha, hx, if_false]
  generalize (first c &&& 7).toNat = sz at *
  generalize acceptRanges _ = acc
  by_cases hl : t.length + 1 < sz
  · simp only [hl, if_true]; omega
  simp only [hl, if_false]
  -- past the width check, the loop advances by one or by the whole `sz`
  obtain rfl | rfl | rfl : sz = 2 ∨ sz = 3 ∨ sz = 4 := by omega
  all_goals
    rcases t with _ | ⟨s1, _ | ⟨s2, _ | ⟨s3, t⟩⟩⟩ <;>
      simp only [List.length_cons, List.length_nil] at hl ⊢ <;>
      (try cases acc.outside s1) <;> (try cases notCont s2) <;> (try cases notCont s3) <;>
      simp at hl ⊢

theorem decodeRuneInString_width (c : UInt8) (t : Bytes) :
    1 ≤ (decodeRuneInString (c :: t)).2 ∧ (decodeRuneInString (c :: t)).2 ≤ t.length + 1 :=
  countWidth_eq c t ▸ countWidth_bounds c t

/-- An ASCII byte is a rune of width one. -/
theorem decodeRuneInString_ascii {c : UInt8} (h : c < 0x80) (t : Bytes) :
    decodeRuneInString (c :: t) = ((c.toNat : Rune), 1) := by
  simp [decodeRuneInString, first_ascii c h]

/-- A rune decoded without error reads only its own bytes: what follows does
    not change it. -/
theorem decodeRuneInString_append (c : UInt8) (t u : Bytes)
    (h : (decodeRuneInString (c :: t)).1 ≠ runeError) :
    decodeRuneInString (c :: t ++ u) = decodeRuneInString (c :: t) := by
  simp only [decodeRuneInString, List.cons_append] at h ⊢
  by_cases ha : c < 0x80
  · simp only [first_ascii c ha, if_true]
  by_cases hx : first c = 0xF1
  · simp [hx, show (0xF1 &&& 1 : UInt8) ≠ 0 by decide] at h
  obtain ⟨hlt, h2, h4⟩ := first_width c ha hx
  simp only [hlt, if_false] at h ⊢
  generalize (first c &&& 7).toNat = sz at *
  generalize acceptRanges _ = acc at *
  by_cases hl : t.length + 1 < sz
  · simp [hl] at h
  have hl' : ¬ (t ++ u).length + 1 < sz := by simp only [List.length_append]; omega
  simp only [hl, hl', if_false]
  -- a rune of `sz` bytes reads `sz - 1` bytes of `t`, all there
  obtain rfl | rfl | rfl : sz = 2 ∨ sz = 3 ∨ sz = 4 := by omega
  all_goals rcases t with _ | ⟨s1, _ | ⟨s2, _ | ⟨s3, t⟩⟩⟩ <;> first | rfl | simp at hl

/-- The decoder yields a code point or `RuneError`: never a negative rune. -/
theorem decodeRuneInString_nonneg (s : Bytes) : 0 ≤ (decodeRuneInString s).1 := by
  rcases s with _ | ⟨c, _ | ⟨s1, _ | ⟨s2, _ | ⟨s3, t⟩⟩⟩⟩
  all_goals
    simp only [decodeRuneInString, apply_ite Prod.fst]
    repeat (first | apply ite_nonneg | exact Int.ofNat_nonneg _)

/-! ## The two loops -/

/-- `utf8.RuneCountInString(s)`: one for every step of its loop. -/
def runeCountInString (s : Bytes) : Nat :=
  match s with
  | [] => 0
  | c :: t =>
    have := (countWidth_bounds c t).1
    runeCountInString ((c :: t).drop (countWidth (c :: t))) + 1
termination_by s.length
decreasing_by simp only [List.length_drop, List.length_cons]; omega

/-- The runes of `s` as `for range s` visits them (and `[]rune(s)` lists
    them): `decodeRuneInString` from the front, each rune's bytes dropped
    before the next is decoded. -/
def toRunes (s : Bytes) : List Rune :=
  match s with
  | [] => []
  | c :: t =>
    have := (decodeRuneInString_width c t).1
    (decodeRuneInString (c :: t)).1 :: toRunes ((c :: t).drop (decodeRuneInString (c :: t)).2)
termination_by s.length
decreasing_by simp only [List.length_drop, List.length_cons]; omega

@[simp] theorem toRunes_nil : toRunes [] = [] := by
  unfold toRunes; rfl

theorem toRunes_cons (c : UInt8) (t : Bytes) :
    toRunes (c :: t) = (decodeRuneInString (c :: t)).1 ::
      toRunes ((c :: t).drop (decodeRuneInString (c :: t)).2) := by
  rw [toRunes.eq_def]

theorem toRunes_ascii {c : UInt8} (h : c < 0x80) (t : Bytes) :
    toRunes (c :: t) = (c.toNat : Rune) :: toRunes t := by
  simp [toRunes_cons, decodeRuneInString_ascii h]

/-- One step of the decoding, at a rune `r` of width `w`. -/
theorem toRunes_of_decode {s : Bytes} {r : Rune} {w : Nat} (hs : s ≠ [])
    (h : decodeRuneInString s = (r, w)) : toRunes s = r :: toRunes (s.drop w) := by
  obtain ⟨c, t, rfl⟩ := List.exists_cons_of_ne_nil hs
  rw [toRunes_cons, h]

/-- An ASCII string is its own runes. -/
theorem toRunes_of_ascii {s : Bytes} (h : ∀ c ∈ s, c < 0x80) :
    toRunes s = s.map fun c => (c.toNat : Rune) := by
  induction s with
  | nil => simp
  | cons c s ih =>
    rw [toRunes_ascii (h c (List.mem_cons_self c s)), ih fun d hd => h d (List.mem_cons_of_mem c hd)]
    rfl

/-- A string that decodes without error decodes the same at the front of any
    other. -/
theorem toRunes_append {s : Bytes} (hs : runeError ∉ toRunes s) (u : Bytes) :
    toRunes (s ++ u) = toRunes s ++ toRunes u := by
  induction s using toRunes.induct with
  | case1 => simp
  | case2 c t _ ih =>
    rw [toRunes_cons, List.mem_cons, not_or] at hs
    have hw := (decodeRuneInString_width c t).2
    rw [List.cons_append, toRunes_cons, ← List.cons_append,
      decodeRuneInString_append c t u (Ne.symm hs.1),
      List.drop_append_of_le_length (by simpa using hw), ih hs.2, toRunes_cons, List.cons_append]

/-- Pieces that each decode without error decode to their runes in turn. -/
theorem toRunes_flatten {ts : List Bytes} (h : ∀ t ∈ ts, runeError ∉ toRunes t) :
    toRunes ts.flatten = ts.flatMap toRunes := by
  induction ts with
  | nil => simp
  | cons t ts ih =>
    rw [List.flatten_cons, toRunes_append (h t (List.mem_cons_self t ts)),
      ih fun t' ht' => h t' (List.mem_cons_of_mem t ht'), List.flatMap_cons]

/-- The counting loop counts exactly the runes the decoding yields: the
    invalid bytes and the incomplete sequences of `s` included, each one
    `RuneError` in both. -/
theorem runeCountInString_eq_length (s : Bytes) :
    runeCountInString s = (toRunes s).length := by
  induction s using runeCountInString.induct with
  | case1 => simp [runeCountInString]
  | case2 c t _ ih => rw [runeCountInString, toRunes_cons, ih, countWidth_eq]; rfl

/-! ## Encoding -/

/-- `utf8.AppendRune(nil, r)`: the UTF-8 bytes of `r`. Go reads `r` as a
    `uint32`, so a negative value, like a surrogate half or a value past
    `MaxRune`, is written as `RuneError`. -/
def appendRune (r : Rune) : Bytes :=
  let i := (r % 0x100000000).toNat
  if i ≤ 0x7F then [i.toUInt8]
  else if i ≤ 0x7FF then [(0xC0 ||| i >>> 6).toUInt8, (0x80 ||| i &&& 0x3F).toUInt8]
  else
    let i := if 0x10FFFF < i ∨ (0xD800 ≤ i ∧ i ≤ 0xDFFF) then 0xFFFD else i
    if i ≤ 0xFFFF then
      [(0xE0 ||| i >>> 12).toUInt8, (0x80 ||| i >>> 6 &&& 0x3F).toUInt8,
        (0x80 ||| i &&& 0x3F).toUInt8]
    else
      [(0xF0 ||| i >>> 18).toUInt8, (0x80 ||| i >>> 12 &&& 0x3F).toUInt8,
        (0x80 ||| i >>> 6 &&& 0x3F).toUInt8, (0x80 ||| i &&& 0x3F).toUInt8]

theorem toUInt8_toNat (c : UInt8) : c.toNat.toUInt8 = c := by
  cases c; simp [Nat.toUInt8, UInt8.ofNat, UInt8.toNat]

theorem toUInt8_eq {n : Nat} {c : UInt8} (h : n = c.toNat) : n.toUInt8 = c := h ▸ toUInt8_toNat c

/-- `a ||| b` adds when `a` has no bit below `1 <<< k` and `b` none from it on. -/
theorem or_eq_add {a b : Nat} (k : Nat) (ha : a % (1 <<< k) = 0) (hb : b < 1 <<< k) :
    a ||| b = a + b := by
  rw [Nat.shiftLeft_eq, Nat.one_mul] at ha hb
  obtain ⟨q, rfl⟩ := Nat.dvd_of_mod_eq_zero ha
  exact (Nat.mul_add_lt_is_or hb q).symm

/-- The low `k` bits of a byte `base + a`, `base` a multiple of `1 <<< k` and
    `a < 1 <<< k`, are `a`. -/
theorem toNat_and_eq {c m : UInt8} {base a : Nat} (k : Nat) (hm : m.toNat = (1 <<< k) - 1)
    (hc : c.toNat = base + a) (hbase : base % (1 <<< k) = 0) (ha : a < 1 <<< k) :
    (c &&& m).toNat = a := by
  rw [Nat.shiftLeft_eq, Nat.one_mul] at hm hbase ha
  rw [UInt8.and_toNat, hm, Nat.and_pow_two_sub_one_eq_mod, hc, Nat.add_mod, hbase, Nat.zero_add,
    Nat.mod_mod, Nat.mod_eq_of_lt ha]

/-! ### Go's shifts and masks as base-64 digits -/

theorem shiftRight_six (n : Nat) : n >>> 6 = n / 64 := Nat.shiftRight_eq_div_pow n 6

theorem shiftRight_twelve (n : Nat) : n >>> 12 = n / 64 / 64 := by
  rw [show n >>> 12 = n >>> 6 >>> 6 from Nat.shiftRight_add n 6 6, shiftRight_six, shiftRight_six]

theorem shiftRight_eighteen (n : Nat) : n >>> 18 = n / 64 / 64 / 64 := by
  rw [show n >>> 18 = n >>> 12 >>> 6 from Nat.shiftRight_add n 12 6, shiftRight_twelve, shiftRight_six]

theorem and_low_six (n : Nat) : n &&& 0x3F = n % 64 := Nat.and_pow_two_sub_one_eq_mod n 6

theorem shiftLeft_six_or {q r : Nat} (hr : r < 64) : q <<< 6 ||| r = 64 * q + r := by
  rw [show q <<< 6 = 64 * q from (Nat.shiftLeft_eq q 6).trans (Nat.mul_comm q 64),
    or_eq_add 6 (Nat.mul_mod_right 64 q) hr]

/-- Three digits shifted into place, as the decoder assembles a rune. -/
theorem shiftLeft_or_three {a b d : Nat} (hb : b < 64) (hd : d < 64) :
    a <<< 12 ||| b <<< 6 ||| d = 64 * (64 * a + b) + d := by
  rw [show a <<< 12 = 4096 * a from (Nat.shiftLeft_eq a 12).trans (Nat.mul_comm a 4096),
    show b <<< 6 = 64 * b from (Nat.shiftLeft_eq b 6).trans (Nat.mul_comm b 64),
    or_eq_add 12 (Nat.mul_mod_right 4096 a) (show 64 * b < 4096 by omega),
    show 4096 * a + 64 * b = 64 * (64 * a + b) by omega, or_eq_add 6 (Nat.mul_mod_right 64 _) hd]

theorem shiftLeft_or_four {a b d e : Nat} (hb : b < 64) (hd : d < 64) (he : e < 64) :
    a <<< 18 ||| b <<< 12 ||| d <<< 6 ||| e = 64 * (64 * (64 * a + b) + d) + e := by
  rw [show a <<< 18 = 262144 * a from (Nat.shiftLeft_eq a 18).trans (Nat.mul_comm a 262144),
    show b <<< 12 = 4096 * b from (Nat.shiftLeft_eq b 12).trans (Nat.mul_comm b 4096),
    show d <<< 6 = 64 * d from (Nat.shiftLeft_eq d 6).trans (Nat.mul_comm d 64),
    or_eq_add 18 (Nat.mul_mod_right 262144 a) (show 4096 * b < 262144 by omega),
    or_eq_add 12 (show (262144 * a + 4096 * b) % 4096 = 0 by omega) (show 64 * d < 4096 by omega),
    show 262144 * a + 4096 * b + 64 * d = 64 * (64 * (64 * a + b) + d) by omega,
    or_eq_add 6 (Nat.mul_mod_right 64 _) he]

/-- The last base-64 digit of `64 * q + r`, and what is above it. -/
theorem div_mod_64 {q r : Nat} (hr : r < 64) : (64 * q + r) / 64 = q ∧ (64 * q + r) % 64 = r :=
  ⟨by rw [Nat.mul_add_div (by decide), Nat.div_eq_of_lt hr, Nat.add_zero],
    by rw [Nat.mul_add_mod, Nat.mod_eq_of_lt hr]⟩

theorem natCast_emod_toNat {n : Nat} (h : n < 0x100000000) : ((n : Int) % 0x100000000).toNat = n :=
  Nat.mod_eq_of_lt h

theorem outside_eq_false {acc : AcceptRange} {b : UInt8} (h : acc.outside b = false) :
    acc.lo.toNat ≤ b.toNat ∧ b.toNat ≤ acc.hi.toNat := by
  simp only [AcceptRange.outside, Bool.or_eq_false_iff, decide_eq_false_iff_not, UInt8.not_lt] at h
  exact h

theorem notCont_eq_false {b : UInt8} (h : notCont b = false) : 0x80 ≤ b.toNat ∧ b.toNat ≤ 0xBF := by
  simp only [notCont, Bool.or_eq_false_iff, decide_eq_false_iff_not, UInt8.not_lt] at h
  exact h

/-! ### `AppendRune`, one width at a time

A code point is written in base 64: its last digits each in a continuation
byte `0x80 + d`, the first in the leading byte. -/

theorem appendRune_one {n : Nat} (h : n ≤ 0x7F) : appendRune n = [n.toUInt8] := by
  simp only [appendRune, natCast_emod_toNat (show n < 0x100000000 by omega), if_pos h]

theorem appendRune_two {a b : Nat} (ha : 2 ≤ a ∧ a < 32) (hb : b < 64) :
    appendRune (64 * a + b : Nat) = [(0xC0 + a).toUInt8, (0x80 + b).toUInt8] := by
  obtain ⟨h1, h2⟩ := @div_mod_64 a b hb
  simp only [appendRune, natCast_emod_toNat (show 64 * a + b < 0x100000000 by omega),
    if_neg (show ¬ 64 * a + b ≤ 0x7F by omega), if_pos (show 64 * a + b ≤ 0x7FF by omega),
    shiftRight_six, and_low_six, h1, h2]
  rw [or_eq_add 6 rfl (show a < 64 by omega), or_eq_add 6 rfl hb]

theorem appendRune_three {a b c : Nat} (ha : a < 16) (hb : b < 64) (hc : c < 64)
    (hlo : 0x800 ≤ 64 * (64 * a + b) + c)
    (hs : 64 * (64 * a + b) + c < 0xD800 ∨ 0xDFFF < 64 * (64 * a + b) + c) :
    appendRune (64 * (64 * a + b) + c : Nat) =
      [(0xE0 + a).toUInt8, (0x80 + b).toUInt8, (0x80 + c).toUInt8] := by
  have hhi : 64 * (64 * a + b) + c ≤ 0xFFFF := by omega
  generalize hn : 64 * (64 * a + b) + c = n at hlo hs hhi
  simp only [appendRune, natCast_emod_toNat (show n < 0x100000000 by omega),
    if_neg (show ¬ n ≤ 0x7F by omega), if_neg (show ¬ n ≤ 0x7FF by omega),
    if_neg (show ¬ (0x10FFFF < n ∨ (0xD800 ≤ n ∧ n ≤ 0xDFFF)) by omega), if_pos hhi,
    shiftRight_twelve, shiftRight_six, and_low_six]
  obtain ⟨h1, h2⟩ := @div_mod_64 (64 * a + b) c hc
  obtain ⟨h3, h4⟩ := @div_mod_64 a b hb
  subst hn
  simp only [h1, h2, h3, h4]
  rw [or_eq_add 4 rfl ha, or_eq_add 6 rfl hb, or_eq_add 6 rfl hc]

theorem appendRune_four {a b c d : Nat} (hb : b < 64) (hc : c < 64) (hd : d < 64)
    (hlo : 0x10000 ≤ 64 * (64 * (64 * a + b) + c) + d)
    (hhi : 64 * (64 * (64 * a + b) + c) + d ≤ 0x10FFFF) :
    appendRune (64 * (64 * (64 * a + b) + c) + d : Nat) =
      [(0xF0 + a).toUInt8, (0x80 + b).toUInt8, (0x80 + c).toUInt8, (0x80 + d).toUInt8] := by
  have ha : a < 8 := by omega
  generalize hn : 64 * (64 * (64 * a + b) + c) + d = n at hlo hhi
  simp only [appendRune, natCast_emod_toNat (show n < 0x100000000 by omega),
    if_neg (show ¬ n ≤ 0x7F by omega), if_neg (show ¬ n ≤ 0x7FF by omega),
    if_neg (show ¬ (0x10FFFF < n ∨ (0xD800 ≤ n ∧ n ≤ 0xDFFF)) by omega),
    if_neg (show ¬ n ≤ 0xFFFF by omega), shiftRight_eighteen, shiftRight_twelve, shiftRight_six,
    and_low_six]
  obtain ⟨h1, h2⟩ := @div_mod_64 (64 * (64 * a + b) + c) d hd
  obtain ⟨h3, h4⟩ := @div_mod_64 (64 * a + b) c hc
  obtain ⟨h5, h6⟩ := @div_mod_64 a b hb
  subst hn
  simp only [h1, h2, h3, h4, h5, h6]
  rw [or_eq_add 3 rfl ha, or_eq_add 6 rfl hb, or_eq_add 6 rfl hc, or_eq_add 6 rfl hd]

/-! ### The sequences the decoder accepts -/

theorem appendRune_two_bytes {c s1 : UInt8} (hc : 0xC2 ≤ c.toNat ∧ c.toNat ≤ 0xDF)
    (hs1 : 0x80 ≤ s1.toNat ∧ s1.toNat ≤ 0xBF) :
    appendRune (((c &&& 0x1F).toNat <<< 6 ||| (s1 &&& 0x3F).toNat : Nat) : Int) = [c, s1] := by
  obtain ⟨a, hca⟩ := Nat.exists_eq_add_of_le (show 0xC0 ≤ c.toNat by omega)
  obtain ⟨b, hsb⟩ := Nat.exists_eq_add_of_le hs1.1
  have hb : b < 64 := by omega
  rw [toNat_and_eq 5 (by rfl) hca rfl (show a < 32 by omega), toNat_and_eq 6 (by rfl) hsb rfl hb,
    shiftLeft_six_or hb, appendRune_two (by omega) hb]
  exact congrArg₂ _ (toUInt8_eq hca.symm) (congrArg₂ _ (toUInt8_eq hsb.symm) rfl)

theorem appendRune_three_bytes {c s1 s2 : UInt8} (hc : 0xE0 ≤ c.toNat ∧ c.toNat ≤ 0xEF)
    (hs1 : 0x80 ≤ s1.toNat ∧ s1.toNat ≤ 0xBF) (hE0 : c.toNat = 0xE0 → 0xA0 ≤ s1.toNat)
    (hED : c.toNat = 0xED → s1.toNat ≤ 0x9F) (hs2 : 0x80 ≤ s2.toNat ∧ s2.toNat ≤ 0xBF) :
    appendRune (((c &&& 0x0F).toNat <<< 12 ||| (s1 &&& 0x3F).toNat <<< 6 |||
      (s2 &&& 0x3F).toNat : Nat) : Int) = [c, s1, s2] := by
  obtain ⟨a, hca⟩ := Nat.exists_eq_add_of_le hc.1
  obtain ⟨b, hsb⟩ := Nat.exists_eq_add_of_le hs1.1
  obtain ⟨d, hsd⟩ := Nat.exists_eq_add_of_le hs2.1
  have ha : a < 16 := by omega
  have hb : b < 64 := by omega
  have hd : d < 64 := by omega
  rw [toNat_and_eq 4 (by rfl) hca rfl ha, toNat_and_eq 6 (by rfl) hsb rfl hb,
    toNat_and_eq 6 (by rfl) hsd rfl hd, shiftLeft_or_three hb hd,
    appendRune_three ha hb hd (by omega) (by omega)]
  exact congrArg₂ _ (toUInt8_eq hca.symm)
    (congrArg₂ _ (toUInt8_eq hsb.symm) (congrArg₂ _ (toUInt8_eq hsd.symm) rfl))

theorem appendRune_four_bytes {c s1 s2 s3 : UInt8} (hc : 0xF0 ≤ c.toNat ∧ c.toNat ≤ 0xF4)
    (hs1 : 0x80 ≤ s1.toNat ∧ s1.toNat ≤ 0xBF) (hF0 : c.toNat = 0xF0 → 0x90 ≤ s1.toNat)
    (hF4 : c.toNat = 0xF4 → s1.toNat ≤ 0x8F) (hs2 : 0x80 ≤ s2.toNat ∧ s2.toNat ≤ 0xBF)
    (hs3 : 0x80 ≤ s3.toNat ∧ s3.toNat ≤ 0xBF) :
    appendRune (((c &&& 0x07).toNat <<< 18 ||| (s1 &&& 0x3F).toNat <<< 12 |||
      (s2 &&& 0x3F).toNat <<< 6 ||| (s3 &&& 0x3F).toNat : Nat) : Int) = [c, s1, s2, s3] := by
  obtain ⟨a, hca⟩ := Nat.exists_eq_add_of_le hc.1
  obtain ⟨b, hsb⟩ := Nat.exists_eq_add_of_le hs1.1
  obtain ⟨d, hsd⟩ := Nat.exists_eq_add_of_le hs2.1
  obtain ⟨e, hse⟩ := Nat.exists_eq_add_of_le hs3.1
  have ha : a < 8 := by omega
  have hb : b < 64 := by omega
  have hd : d < 64 := by omega
  have he : e < 64 := by omega
  rw [toNat_and_eq 3 (by rfl) hca rfl ha, toNat_and_eq 6 (by rfl) hsb rfl hb,
    toNat_and_eq 6 (by rfl) hsd rfl hd, toNat_and_eq 6 (by rfl) hse rfl he,
    shiftLeft_or_four hb hd he, appendRune_four hb hd he (by omega) (by omega)]
  exact congrArg₂ _ (toUInt8_eq hca.symm) (congrArg₂ _ (toUInt8_eq hsb.symm)
    (congrArg₂ _ (toUInt8_eq hsd.symm) (congrArg₂ _ (toUInt8_eq hse.symm) rfl)))

/-- The UTF-8 round trip: a rune decoded without error (`U+FFFD` itself
    included) is written back as the bytes it was read from; only an invalid
    byte, read as `RuneError` of width one, is not. -/
theorem appendRune_decodeRuneInString (c : UInt8) (t : Bytes)
    (h : (decodeRuneInString (c :: t)).1 ≠ runeError ∨ (decodeRuneInString (c :: t)).2 ≠ 1) :
    appendRune (decodeRuneInString (c :: t)).1 = (c :: t).take (decodeRuneInString (c :: t)).2 := by
  by_cases ha : c < 0x80
  · rw [decodeRuneInString_ascii ha]
    exact (appendRune_one (show c.toNat ≤ 0x7F from Nat.le_of_lt_succ ha)).trans
      (congrArg ([·]) (toUInt8_toNat c))
  by_cases hx : first c = 0xF1
  · simp [decodeRuneInString, hx, show (0xF1 &&& 1 : UInt8) ≠ 0 by decide] at h
  obtain ⟨hlt, hlo, hhi, hlead⟩ := first_lead c ha hx
  simp only [decodeRuneInString, hlt, if_false] at h ⊢
  generalize acceptRanges _ = acc at *
  generalize (first c &&& 7).toNat = sz at *
  -- a sequence cut short, or with a byte out of its range, is an invalid byte
  rcases hlead with ⟨rfl, hc⟩ | ⟨rfl, hc1, hc2, hE0, hED⟩ | ⟨rfl, hc1, hc2, hF0, hF4⟩
  · rcases t with _ | ⟨s1, t⟩
    · simp at h
    cases ho : acc.outside s1
    · have hs1 := outside_eq_false ho
      simp only [ho]
      exact appendRune_two_bytes hc ⟨hlo.trans hs1.1, hs1.2.trans hhi⟩
    · simp [ho] at h
  · rcases t with _ | ⟨s1, _ | ⟨s2, t⟩⟩
    · simp at h
    · simp at h
    cases ho : acc.outside s1
    · cases hn : notCont s2
      · have hs1 := outside_eq_false ho
        simp only [ho, hn]
        exact appendRune_three_bytes ⟨hc1, hc2⟩ ⟨hlo.trans hs1.1, hs1.2.trans hhi⟩
          (fun e => (hE0 e).trans hs1.1) (fun e => hs1.2.trans (hED e)) (notCont_eq_false hn)
      · simp [ho, hn] at h
    · simp [ho] at h
  · rcases t with _ | ⟨s1, _ | ⟨s2, _ | ⟨s3, t⟩⟩⟩
    · simp at h
    · simp at h
    · simp at h
    cases ho : acc.outside s1
    · cases hn : notCont s2
      · cases hn' : notCont s3
        · have hs1 := outside_eq_false ho
          simp only [ho, hn, hn']
          exact appendRune_four_bytes ⟨hc1, hc2⟩ ⟨hlo.trans hs1.1, hs1.2.trans hhi⟩
            (fun e => (hF0 e).trans hs1.1) (fun e => hs1.2.trans (hF4 e)) (notCont_eq_false hn)
            (notCont_eq_false hn')
        · simp [ho, hn, hn'] at h
      · simp [ho, hn] at h
    · simp [ho] at h

end Utf8

end Go
