import Atlchat.Go.Strings

/-!
# Reading back what is written

`strings.ToUpper` writes every rune it maps with `utf8.AppendRune`, and the
parser then looks the verb up by its bytes. This module proves the direction
of the UTF-8 round trip that `Atlchat.Go.Utf8` leaves open: decoding what
`AppendRune` writes gives back the rune written, so a string is upper-cased
rune by rune.

* `decodeRuneInString_appendRune`: decoding the bytes `AppendRune` writes for
  a valid rune (`utf8.ValidRune`) reads that rune over exactly those bytes,
  whatever follows them; a rune that is no code point is written as
  `RuneError` (`appendRune_invalid`);
* `validRune_decodeRuneInString`: the decoder yields only valid runes, no
  surrogate half and nothing past `MaxRune`, as the bytes of a rune it reads
  are what `AppendRune` writes for it;
* `toRunes_flatMap_appendRune_iff`: runes written one after the other are
  read back as themselves exactly when they are all valid;
* `toRunes_toUpper`: the runes of `strings.ToUpper(s)` are the runes of `s`,
  each upper-cased by `unicode.ToUpper`, for any case table that takes valid
  runes to valid runes, as the rows of `latinCaseRanges` do.
-/

namespace Go

namespace Utf8

/-- `utf8.ValidRune(r)`: a code point that is no surrogate half. -/
def validRune (r : Rune) : Bool :=
  (0 ≤ r && r < 0xD800) || (0xDFFF < r && r ≤ maxRune)

theorem validRune_iff (r : Int) :
    validRune r = true ↔ (0 ≤ r ∧ r < 0xD800) ∨ (0xDFFF < r ∧ r ≤ 0x10FFFF) := by
  simp [validRune, maxRune]

theorem validRune_runeError : validRune runeError := by decide

/-! ## The leading bytes -/

/-- `first` and `acceptRanges` on the leading bytes `0xC2..0xF4`, by their
    offset from `0xC2`. -/
theorem first_accept_offset : ∀ n < 51,
    ¬ 0xF0 ≤ first (0xC2 + n).toUInt8 ∧
      (first (0xC2 + n).toUInt8 &&& 7).toNat =
        (if 0xC2 + n ≤ 0xDF then 2 else if 0xC2 + n ≤ 0xEF then 3 else 4) ∧
      (acceptRanges (first (0xC2 + n).toUInt8 >>> 4).toNat).lo.toNat =
        (if 0xC2 + n = 0xE0 then 0xA0 else if 0xC2 + n = 0xF0 then 0x90 else 0x80) ∧
      (acceptRanges (first (0xC2 + n).toUInt8 >>> 4).toNat).hi.toNat =
        (if 0xC2 + n = 0xED then 0x9F else if 0xC2 + n = 0xF4 then 0x8F else 0xBF) := by
  decide

/-- What `first` and `acceptRanges` say of a leading byte, exactly: the width
    of its sequence, and the range of the second byte, narrowed after `E0` and
    `F0` (no overlong encoding), `ED` (no surrogate) and `F4` (nothing past
    `MaxRune`). -/
theorem first_accept (b : UInt8) (h : 0xC2 ≤ b.toNat ∧ b.toNat ≤ 0xF4) :
    ¬ 0xF0 ≤ first b ∧
      (first b &&& 7).toNat = (if b.toNat ≤ 0xDF then 2 else if b.toNat ≤ 0xEF then 3 else 4) ∧
      (acceptRanges (first b >>> 4).toNat).lo.toNat =
        (if b.toNat = 0xE0 then 0xA0 else if b.toNat = 0xF0 then 0x90 else 0x80) ∧
      (acceptRanges (first b >>> 4).toNat).hi.toNat =
        (if b.toNat = 0xED then 0x9F else if b.toNat = 0xF4 then 0x8F else 0xBF) := by
  obtain ⟨n, hn⟩ : ∃ n, 0xC2 + n = b.toNat := ⟨b.toNat - 0xC2, by omega⟩
  rw [← hn, ← toUInt8_eq hn]
  exact first_accept_offset n (by omega)

/-! ## Decoding a well-formed sequence -/

theorem toNat_toUInt8 {n : Nat} (h : n < 256) : n.toUInt8.toNat = n := Nat.mod_eq_of_lt h

theorem outside_eq_false_of_le {acc : AcceptRange} {b : UInt8}
    (h : acc.lo.toNat ≤ b.toNat ∧ b.toNat ≤ acc.hi.toNat) : acc.outside b = false := by
  simp only [AcceptRange.outside, Bool.or_eq_false_iff, decide_eq_false_iff_not, UInt8.not_lt]
  exact h

theorem notCont_eq_false_of_le {b : UInt8} (h : 0x80 ≤ b.toNat ∧ b.toNat ≤ 0xBF) : notCont b = false := by
  simp only [notCont, Bool.or_eq_false_iff, decide_eq_false_iff_not, UInt8.not_lt]
  exact h

/-! ### The rune a sequence spells, in base 64 -/

theorem value_two {c s1 : UInt8} (hc : 0xC0 ≤ c.toNat ∧ c.toNat ≤ 0xDF)
    (hs1 : 0x80 ≤ s1.toNat ∧ s1.toNat ≤ 0xBF) :
    (c &&& 0x1F).toNat <<< 6 ||| (s1 &&& 0x3F).toNat = 64 * (c.toNat - 0xC0) + (s1.toNat - 0x80) := by
  obtain ⟨a, hca⟩ := Nat.exists_eq_add_of_le hc.1
  obtain ⟨b, hsb⟩ := Nat.exists_eq_add_of_le hs1.1
  rw [toNat_and_eq 5 (by rfl) hca rfl (show a < 32 by omega), toNat_and_eq 6 (by rfl) hsb rfl (by omega),
    shiftLeft_six_or (by omega), hca, hsb, Nat.add_sub_cancel_left, Nat.add_sub_cancel_left]

theorem decodeRuneInString_two_bytes {c s1 : UInt8} (hc : 0xC2 ≤ c.toNat ∧ c.toNat ≤ 0xDF)
    (hs1 : 0x80 ≤ s1.toNat ∧ s1.toNat ≤ 0xBF) (t : Bytes) :
    decodeRuneInString (c :: s1 :: t) = (((64 * (c.toNat - 0xC0) + (s1.toNat - 0x80) : Nat) : Rune), 2) := by
  obtain ⟨hlt, hsz, hlo, hhi⟩ := first_accept c ⟨hc.1, by omega⟩
  rw [if_pos hc.2] at hsz
  rw [if_neg (by omega), if_neg (by omega)] at hlo hhi
  simp only [decodeRuneInString, hlt, if_false, hsz, List.length_cons,
    outside_eq_false_of_le (show _ ∧ _ from ⟨hlo ▸ hs1.1, hhi ▸ hs1.2⟩), value_two ⟨by omega, hc.2⟩ hs1,
    if_neg (show ¬ t.length + 1 + 1 < 2 by omega), Bool.false_eq_true, if_false, Nat.le_refl, if_true]

theorem value_three {c s1 s2 : UInt8} (hc : 0xE0 ≤ c.toNat ∧ c.toNat ≤ 0xEF)
    (hs1 : 0x80 ≤ s1.toNat ∧ s1.toNat ≤ 0xBF) (hs2 : 0x80 ≤ s2.toNat ∧ s2.toNat ≤ 0xBF) :
    (c &&& 0x0F).toNat <<< 12 ||| (s1 &&& 0x3F).toNat <<< 6 ||| (s2 &&& 0x3F).toNat =
      64 * (64 * (c.toNat - 0xE0) + (s1.toNat - 0x80)) + (s2.toNat - 0x80) := by
  obtain ⟨a, hca⟩ := Nat.exists_eq_add_of_le hc.1
  obtain ⟨b, hsb⟩ := Nat.exists_eq_add_of_le hs1.1
  obtain ⟨d, hsd⟩ := Nat.exists_eq_add_of_le hs2.1
  rw [toNat_and_eq 4 (by rfl) hca rfl (show a < 16 by omega), toNat_and_eq 6 (by rfl) hsb rfl (by omega),
    toNat_and_eq 6 (by rfl) hsd rfl (by omega), shiftLeft_or_three (by omega) (by omega), hca, hsb, hsd,
    Nat.add_sub_cancel_left, Nat.add_sub_cancel_left, Nat.add_sub_cancel_left]

theorem value_four {c s1 s2 s3 : UInt8} (hc : 0xF0 ≤ c.toNat ∧ c.toNat ≤ 0xF7)
    (hs1 : 0x80 ≤ s1.toNat ∧ s1.toNat ≤ 0xBF) (hs2 : 0x80 ≤ s2.toNat ∧ s2.toNat ≤ 0xBF)
    (hs3 : 0x80 ≤ s3.toNat ∧ s3.toNat ≤ 0xBF) :
    (c &&& 0x07).toNat <<< 18 ||| (s1 &&& 0x3F).toNat <<< 12 ||| (s2 &&& 0x3F).toNat <<< 6 |||
        (s3 &&& 0x3F).toNat =
      64 * (64 * (64 * (c.toNat - 0xF0) + (s1.toNat - 0x80)) + (s2.toNat - 0x80)) + (s3.toNat - 0x80) := by
  obtain ⟨a, hca⟩ := Nat.exists_eq_add_of_le hc.1
  obtain ⟨b, hsb⟩ := Nat.exists_eq_add_of_le hs1.1
  obtain ⟨d, hsd⟩ := Nat.exists_eq_add_of_le hs2.1
  obtain ⟨e, hse⟩ := Nat.exists_eq_add_of_le hs3.1
  rw [toNat_and_eq 3 (by rfl) hca rfl (show a < 8 by omega), toNat_and_eq 6 (by rfl) hsb rfl (by omega),
    toNat_and_eq 6 (by rfl) hsd rfl (by omega), toNat_and_eq 6 (by rfl) hse rfl (by omega),
    shiftLeft_or_four (by omega) (by omega) (by omega), hca, hsb, hsd, hse, Nat.add_sub_cancel_left,
    Nat.add_sub_cancel_left, Nat.add_sub_cancel_left, Nat.add_sub_cancel_left]

theorem decodeRuneInString_three_bytes {c s1 s2 : UInt8} (hc : 0xE0 ≤ c.toNat ∧ c.toNat ≤ 0xEF)
    (hs1 : 0x80 ≤ s1.toNat ∧ s1.toNat ≤ 0xBF) (hE0 : c.toNat = 0xE0 → 0xA0 ≤ s1.toNat)
    (hED : c.toNat = 0xED → s1.toNat ≤ 0x9F) (hs2 : 0x80 ≤ s2.toNat ∧ s2.toNat ≤ 0xBF) (t : Bytes) :
    decodeRuneInString (c :: s1 :: s2 :: t) =
      (((64 * (64 * (c.toNat - 0xE0) + (s1.toNat - 0x80)) + (s2.toNat - 0x80) : Nat) : Rune), 3) := by
  obtain ⟨hlt, hsz, hlo, hhi⟩ := first_accept c ⟨by omega, by omega⟩
  rw [if_neg (by omega), if_pos hc.2] at hsz
  have hacc : (acceptRanges (first c >>> 4).toNat).lo.toNat ≤ s1.toNat ∧
      s1.toNat ≤ (acceptRanges (first c >>> 4).toNat).hi.toNat := by
    constructor
    · rw [hlo]; split_ifs with h h'
      exacts [hE0 h, absurd h' (by omega), hs1.1]
    · rw [hhi]; split_ifs with h h'
      exacts [hED h, absurd h' (by omega), hs1.2]
  simp only [decodeRuneInString, hlt, if_false, hsz, List.length_cons, outside_eq_false_of_le hacc,
    notCont_eq_false_of_le hs2, value_three hc hs1 hs2, if_neg (show ¬ t.length + 1 + 1 + 1 < 3 by omega),
    Bool.false_eq_true, if_false, Nat.le_refl, if_true, show ¬ 3 ≤ 2 by decide]

theorem decodeRuneInString_four_bytes {c s1 s2 s3 : UInt8} (hc : 0xF0 ≤ c.toNat ∧ c.toNat ≤ 0xF4)
    (hs1 : 0x80 ≤ s1.toNat ∧ s1.toNat ≤ 0xBF) (hF0 : c.toNat = 0xF0 → 0x90 ≤ s1.toNat)
    (hF4 : c.toNat = 0xF4 → s1.toNat ≤ 0x8F) (hs2 : 0x80 ≤ s2.toNat ∧ s2.toNat ≤ 0xBF)
    (hs3 : 0x80 ≤ s3.toNat ∧ s3.toNat ≤ 0xBF) (t : Bytes) :
    decodeRuneInString (c :: s1 :: s2 :: s3 :: t) =
      (((64 * (64 * (64 * (c.toNat - 0xF0) + (s1.toNat - 0x80)) + (s2.toNat - 0x80)) +
        (s3.toNat - 0x80) : Nat) : Rune), 4) := by
  obtain ⟨hlt, hsz, hlo, hhi⟩ := first_accept c ⟨by omega, hc.2⟩
  rw [if_neg (by omega), if_neg (by omega)] at hsz
  have hacc : (acceptRanges (first c >>> 4).toNat).lo.toNat ≤ s1.toNat ∧
      s1.toNat ≤ (acceptRanges (first c >>> 4).toNat).hi.toNat := by
    constructor
    · rw [hlo]; split_ifs with h h'
      exacts [absurd h (by omega), hF0 h', hs1.1]
    · rw [hhi]; split_ifs with h h'
      exacts [absurd h (by omega), hF4 h', hs1.2]
  simp only [decodeRuneInString, hlt, if_false, hsz, List.length_cons, outside_eq_false_of_le hacc,
    notCont_eq_false_of_le hs2, notCont_eq_false_of_le hs3, value_four ⟨hc.1, by omega⟩ hs1 hs2 hs3,
    if_neg (show ¬ t.length + 1 + 1 + 1 + 1 < 4 by omega), Bool.false_eq_true, if_false,
    show ¬ 4 ≤ 2 by decide, show ¬ 4 ≤ 3 by decide]

/-! ### Decoding what `AppendRune` writes, one width at a time -/

theorem decodeRuneInString_appendRune_one {n : Nat} (h : n ≤ 0x7F) (t : Bytes) :
    decodeRuneInString (appendRune n ++ t) = ((n : Rune), (appendRune n).length) := by
  have hn : n.toUInt8.toNat = n := toNat_toUInt8 (by omega)
  have hc : n.toUInt8 < 0x80 := by show n.toUInt8.toNat < 0x80; rw [hn]; omega
  rw [appendRune_one h, List.singleton_append, decodeRuneInString_ascii hc, hn]
  rfl

theorem decodeRuneInString_appendRune_two {a b : Nat} (ha : 2 ≤ a ∧ a < 32) (hb : b < 64) (t : Bytes) :
    decodeRuneInString (appendRune (64 * a + b : Nat) ++ t) =
      (((64 * a + b : Nat) : Rune), (appendRune (64 * a + b : Nat)).length) := by
  have hc : (0xC0 + a).toUInt8.toNat = 0xC0 + a := toNat_toUInt8 (by omega)
  have hs1 : (0x80 + b).toUInt8.toNat = 0x80 + b := toNat_toUInt8 (by omega)
  rw [appendRune_two ha hb, List.cons_append, List.cons_append, List.nil_append,
    decodeRuneInString_two_bytes (by omega) (by omega), hc, hs1, Nat.add_sub_cancel_left,
    Nat.add_sub_cancel_left]
  rfl

theorem decodeRuneInString_appendRune_three {a b d : Nat} (ha : a < 16) (hb : b < 64) (hd : d < 64)
    (hlo : 0x800 ≤ 64 * (64 * a + b) + d)
    (hs : 64 * (64 * a + b) + d < 0xD800 ∨ 0xDFFF < 64 * (64 * a + b) + d) (t : Bytes) :
    decodeRuneInString (appendRune (64 * (64 * a + b) + d : Nat) ++ t) =
      (((64 * (64 * a + b) + d : Nat) : Rune), (appendRune (64 * (64 * a + b) + d : Nat)).length) := by
  have hc : (0xE0 + a).toUInt8.toNat = 0xE0 + a := toNat_toUInt8 (by omega)
  have hs1 : (0x80 + b).toUInt8.toNat = 0x80 + b := toNat_toUInt8 (by omega)
  have hs2 : (0x80 + d).toUInt8.toNat = 0x80 + d := toNat_toUInt8 (by omega)
  -- after `E0` the second byte is at least `A0`, after `ED` at most `9F`
  rw [appendRune_three ha hb hd hlo hs, List.cons_append, List.cons_append, List.cons_append,
    List.nil_append, decodeRuneInString_three_bytes (by omega) (by omega) (by omega) (by omega) (by omega),
    hc, hs1, hs2, Nat.add_sub_cancel_left, Nat.add_sub_cancel_left, Nat.add_sub_cancel_left]
  rfl

theorem decodeRuneInString_appendRune_four {a b d e : Nat} (hb : b < 64) (hd : d < 64) (he : e < 64)
    (hlo : 0x10000 ≤ 64 * (64 * (64 * a + b) + d) + e)
    (hhi : 64 * (64 * (64 * a + b) + d) + e ≤ 0x10FFFF) (t : Bytes) :
    decodeRuneInString (appendRune (64 * (64 * (64 * a + b) + d) + e : Nat) ++ t) =
      (((64 * (64 * (64 * a + b) + d) + e : Nat) : Rune),
        (appendRune (64 * (64 * (64 * a + b) + d) + e : Nat)).length) := by
  have hc : (0xF0 + a).toUInt8.toNat = 0xF0 + a := toNat_toUInt8 (by omega)
  have hs1 : (0x80 + b).toUInt8.toNat = 0x80 + b := toNat_toUInt8 (by omega)
  have hs2 : (0x80 + d).toUInt8.toNat = 0x80 + d := toNat_toUInt8 (by omega)
  have hs3 : (0x80 + e).toUInt8.toNat = 0x80 + e := toNat_toUInt8 (by omega)
  -- after `F0` the second byte is at least `90`, after `F4` at most `8F`
  rw [appendRune_four hb hd he hlo hhi, List.cons_append, List.cons_append, List.cons_append,
    List.cons_append, List.nil_append,
    decodeRuneInString_four_bytes (by omega) (by omega) (by omega) (by omega) (by omega) (by omega),
    hc, hs1, hs2, hs3, Nat.add_sub_cancel_left, Nat.add_sub_cancel_left, Nat.add_sub_cancel_left,
    Nat.add_sub_cancel_left]
  rfl

/-- The last base-64 digit of `n`, and what is above it. -/
theorem exists_base64 (n : Nat) : ∃ q d, n = 64 * q + d ∧ d < 64 :=
  ⟨n / 64, n % 64, (Nat.div_add_mod n 64).symm, Nat.mod_lt _ (by decide)⟩

/-- Decoding what `AppendRune` writes for a valid rune reads that rune back,
    over exactly the bytes written, whatever follows them. -/
theorem decodeRuneInString_appendRune {r : Rune} (hr : validRune r) (t : Bytes) :
    decodeRuneInString (appendRune r ++ t) = (r, (appendRune r).length) := by
  rw [validRune_iff] at hr
  obtain ⟨n, rfl⟩ : ∃ n : Nat, (n : Int) = r := ⟨r.toNat, by omega⟩
  replace hr : n < 0xD800 ∨ 0xDFFF < n ∧ n ≤ 0x10FFFF := by omega
  -- by the width `AppendRune` writes, peeling off a base-64 digit for each
  -- continuation byte
  by_cases h1 : n ≤ 0x7F
  · exact decodeRuneInString_appendRune_one h1 t
  obtain ⟨q, e, rfl, he⟩ := exists_base64 n
  by_cases h2 : q < 32
  · exact decodeRuneInString_appendRune_two ⟨by omega, h2⟩ he t
  obtain ⟨q, d, rfl, hd⟩ := exists_base64 q
  by_cases h3 : q < 16
  · exact decodeRuneInString_appendRune_three h3 hd he (by omega) (by omega) t
  obtain ⟨a, b, rfl, hb⟩ := exists_base64 q
  exact decodeRuneInString_appendRune_four hb hd he (by omega) (by omega) t

/-- `AppendRune` reads its rune as a `uint32`. -/
theorem appendRune_emod (r : Rune) : appendRune (r % 0x100000000) = appendRune r := by
  simp only [appendRune, Int.emod_emod]

/-- A rune that is no code point as a `uint32` (a surrogate half, or past
    `MaxRune`) is written as `RuneError`. -/
theorem appendRune_invalid {r : Rune} (hr : ¬ validRune (r % 0x100000000)) :
    appendRune r = appendRune runeError := by
  rw [validRune_iff] at hr
  have h0 : 0 ≤ r % 0x100000000 := Int.emod_nonneg r (by decide)
  have h1 : r % 0x100000000 < 0x100000000 := Int.emod_lt_of_pos r (by decide)
  obtain ⟨i, hi⟩ : ∃ i : Nat, (i : Int) = r % 0x100000000 := ⟨(r % 0x100000000).toNat, by omega⟩
  rw [← hi] at hr
  rw [show appendRune runeError = [0xEF, 0xBF, 0xBD] from rfl]
  simp only [appendRune, ← hi, Int.toNat_ofNat, if_neg (show ¬ i ≤ 0x7F by omega),
    if_neg (show ¬ i ≤ 0x7FF by omega), if_pos (show 0x10FFFF < i ∨ (0xD800 ≤ i ∧ i ≤ 0xDFFF) by omega)]
  rfl

/-! ## What the decoder yields -/

/-- The decoder yields only valid runes: no surrogate half, nothing past
    `MaxRune`. The bytes of a rune it reads are what `AppendRune` writes for
    it, and reading those back gives a valid rune or `RuneError`. -/
theorem validRune_decodeRuneInString (s : Bytes) : validRune (decodeRuneInString s).1 := by
  rcases s with _ | ⟨c, t⟩
  · exact validRune_runeError
  by_cases h : (decodeRuneInString (c :: t)).1 ≠ runeError ∨ (decodeRuneInString (c :: t)).2 ≠ 1
  · set r := (decodeRuneInString (c :: t)).1
    have hs : decodeRuneInString (c :: t) =
        decodeRuneInString (appendRune r ++ (c :: t).drop (decodeRuneInString (c :: t)).2) := by
      rw [appendRune_decodeRuneInString c t h, List.take_append_drop]
    by_cases hv : validRune (r % 0x100000000)
    · rw [← appendRune_emod, decodeRuneInString_appendRune hv] at hs
      rw [show r = r % 0x100000000 from congrArg Prod.fst hs]
      exact hv
    · rw [appendRune_invalid hv, decodeRuneInString_appendRune validRune_runeError] at hs
      rw [show r = runeError from congrArg Prod.fst hs]
      exact validRune_runeError
  · rw [not_or, not_not, not_not] at h
    rw [h.1]
    exact validRune_runeError

/-- A valid rune is written as some bytes: reading nothing back gives
    `RuneError`, which is written as three. -/
theorem appendRune_ne_nil {r : Rune} (hr : validRune r) : appendRune r ≠ [] := by
  intro h
  have hd := decodeRuneInString_appendRune hr []
  rw [h] at hd
  obtain rfl : runeError = r := congrArg Prod.fst hd
  exact absurd h (by decide)

/-- A list of valid runes written one after the other is read back as
    itself. -/
theorem toRunes_flatMap_appendRune {rs : List Rune} (h : ∀ r ∈ rs, validRune r) :
    toRunes (rs.flatMap appendRune) = rs := by
  induction rs with
  | nil => simp
  | cons r rs ih =>
    obtain ⟨c, t, hc⟩ := List.exists_cons_of_ne_nil (appendRune_ne_nil (h r (List.mem_cons_self r rs)))
    rw [List.flatMap_cons, hc, List.cons_append, toRunes_cons, ← List.cons_append, ← hc,
      decodeRuneInString_appendRune (h r (List.mem_cons_self r rs)), List.drop_left,
      ih fun r' h' => h r' (List.mem_cons_of_mem r h')]

/-- One rune of each width. -/
example : toRunes ([0x6A, 0x131, 0x20AC, 0x1F600].flatMap appendRune) = [0x6A, 0x131, 0x20AC, 0x1F600] :=
  toRunes_flatMap_appendRune (by decide)

theorem validRune_of_mem_toRunes {s : Bytes} {r : Rune} (h : r ∈ toRunes s) : validRune r := by
  induction s using toRunes.induct with
  | case1 => simp at h
  | case2 c t _ ih =>
    rw [toRunes_cons, List.mem_cons] at h
    rcases h with rfl | h
    · exact validRune_decodeRuneInString _
    · exact ih h

/-- Runes written with `AppendRune` one after the other and read back with
    `DecodeRuneInString` come back as they were exactly when all are valid. Of
    the Go runes (`int32`), one that is negative, a surrogate half or past
    `MaxRune` is written as `RuneError`, and the decoder yields no invalid
    rune. -/
theorem toRunes_flatMap_appendRune_iff (rs : List Rune) :
    (toRunes (rs.flatMap appendRune) = rs ↔ ∀ r ∈ rs, validRune r) ∧
      (∀ r : Rune, -0x80000000 ≤ r → r < 0x80000000 → ¬ validRune r → appendRune r = appendRune runeError) ∧
      ∀ s : Bytes, validRune (decodeRuneInString s).1 := by
  refine ⟨⟨fun h r hr => ?_, toRunes_flatMap_appendRune⟩, fun r hlo hhi hr => appendRune_invalid ?_,
    validRune_decodeRuneInString⟩
  · rw [← h] at hr
    exact validRune_of_mem_toRunes hr
  · -- a negative `int32` is past `MaxRune` as a `uint32`
    rw [validRune_iff] at hr ⊢
    dsimp only [Rune] at hlo hhi
    omega

end Utf8

namespace Unicode

/-- Every row of `latinCaseRanges` lies below the surrogates, and one that is
    no `UpperLower` run moves its runes by a delta that keeps them there and
    non-negative. -/
theorem latinCaseRanges_rows : ∀ cr ∈ latinCaseRanges,
    cr.hi < 0xD800 ∧ (Utf8.maxRune < cr.upper ∨
      (0 ≤ (cr.lo : Int) + cr.upper ∧ (cr.hi : Int) + cr.upper < 0xD800)) := by
  decide

end Unicode

namespace Strings

/-- What the second loop of `strings.Map` writes reads back as the runes of
    `s` mapped, those mapped to a negative value dropped, when `mapping` takes
    valid runes to valid runes. -/
theorem toRunes_mapRest (mapping : Rune → Rune)
    (hm : ∀ r, Utf8.validRune r → 0 ≤ mapping r → Utf8.validRune (mapping r)) (s : Bytes) :
    Utf8.toRunes (mapRest mapping s) = ((Utf8.toRunes s).map mapping).filter (0 ≤ ·) := by
  refine Utf8.toRunes_flatMap_appendRune fun r hr => ?_
  simp only [List.mem_filter, List.mem_map, decide_eq_true_eq] at hr
  obtain ⟨⟨a, ha, rfl⟩, hpos⟩ := hr
  exact hm a (Utf8.validRune_of_mem_toRunes ha) hpos

/-- `strings.Map(mapping, s)` reads back as the runes of `s` mapped, those
    mapped to a negative value dropped, when `mapping` takes valid runes to
    valid runes. -/
theorem toRunes_map (mapping : Rune → Rune)
    (hm : ∀ r, Utf8.validRune r → 0 ≤ mapping r → Utf8.validRune (mapping r)) (s : Bytes) :
    Utf8.toRunes (map mapping s) = ((Utf8.toRunes s).map mapping).filter (0 ≤ ·) := by
  rw [map_eq_mapRest]
  exact toRunes_mapRest mapping hm s

/-- `strings.ToUpper(s)` reads back as the runes of `s`, each upper-cased by
    `unicode.ToUpper`, when the case table takes valid runes to valid runes:
    on an ASCII string by its own loop, and otherwise through `strings.Map`. -/
theorem toRunes_toUpper (caseRanges : List Unicode.CaseRange)
    (hcase : ∀ r, Utf8.validRune r → Utf8.validRune (Unicode.toUpper caseRanges r)) (s : Bytes) :
    Utf8.toRunes (toUpper caseRanges s) = (Utf8.toRunes s).map (Unicode.toUpper caseRanges) := by
  by_cases h : ∀ c ∈ s, c < 0x80
  · -- the ASCII loop shifts every byte as `unicode.ToUpper` shifts the rune it is
    have hu : ∀ c ∈ s.map upperASCII, c < 0x80 := by
      simp only [List.mem_map]
      rintro _ ⟨c, hc, rfl⟩
      have : c.toNat < 0x80 := h c hc
      show (upperASCII c).toNat < 0x80
      rw [upperASCII_toNat]; split_ifs <;> omega
    rw [toUpper_of_ascii caseRanges h, Utf8.toRunes_of_ascii hu, Utf8.toRunes_of_ascii h, List.map_map,
      List.map_map]
    exact List.map_congr_left fun c hc => (toUpper_ascii caseRanges (h c hc)).symm
  · rw [toUpper, if_neg (by simpa using h), toRunes_map _ fun r hr _ => hcase r hr]
    refine List.filter_eq_self.2 fun r hr => ?_
    obtain ⟨a, ha, rfl⟩ := List.mem_map.1 hr
    have := (Utf8.validRune_iff _).1 (hcase a (Utf8.validRune_of_mem_toRunes ha))
    exact decide_eq_true (show (0 : Int) ≤ _ by omega)

/-- The rows of Go's table up to `U+017F` take valid runes to valid runes. -/
theorem validRune_toUpper_latin (r : Rune) (hr : Utf8.validRune r) :
    Utf8.validRune (Unicode.toUpper Unicode.latinCaseRanges r) := by
  rw [Utf8.validRune_iff] at hr ⊢
  unfold Unicode.toUpper Unicode.maxASCII Unicode.toUpperCase
  split_ifs
  · dsimp only [Rune] at *; omega
  · dsimp only [Rune] at *; omega
  split
  · exact hr
  rename_i cr hcr
  have hin := List.find?_some hcr
  simp only [Bool.and_eq_true, decide_eq_true_eq] at hin
  obtain ⟨hhi, hrow⟩ := Unicode.latinCaseRanges_rows cr (List.mem_of_find?_eq_some hcr)
  simp only [Utf8.maxRune] at hrow ⊢
  dsimp only [Rune] at *
  split_ifs <;> omega

theorem toRunes_toUpper_dotless_i :
    (∀ r, Utf8.validRune r → Utf8.validRune (Unicode.toUpper Unicode.latinCaseRanges r)) ∧
      Utf8.toRunes (toUpper Unicode.latinCaseRanges [0x6A, 0x6F, 0xC4, 0xB1, 0x6E]) =
        (Utf8.toRunes [0x6A, 0x6F, 0xC4, 0xB1, 0x6E]).map (Unicode.toUpper Unicode.latinCaseRanges) :=
  ⟨validRune_toUpper_latin, toRunes_toUpper Unicode.latinCaseRanges validRune_toUpper_latin _⟩

end Strings

end Go
