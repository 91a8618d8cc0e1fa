import Atlchat.Go.Utf8

/-!
# The parts of `strings` and `unicode` the parser calls

`commands.go` splits its input with `strings.SplitN` and `strings.Split`,
joins the flag tokens of `MODE` with `strings.Join` and upper-cases the verb
with `strings.ToUpper`. They are modelled here on `Bytes`; the loop Go runs
for `Split` and `SplitN` is in `Atlchat.Go.Split`, and `strconv.ParseUint`,
which reads the numeric mode of `USER`, in `Atlchat.Go.Strconv`.

`strings.ToUpper` is where Unicode comes in: a string that is not all ASCII
goes through `strings.Map(unicode.ToUpper, s)`, and `unicode.ToUpper` looks
every non-ASCII rune up in the table `unicode.CaseRanges`. That table is data
of the Go release, not of this repository, so it is a parameter
(`caseRanges`) wherever it is read; `latinCaseRanges` holds its rows up to
`U+017F`.

* `map_eq_mapRest`: the first loop of `strings.Map`, which copies the bytes of
  the runes `mapping` keeps, computes what mapping every rune computes, by the
  UTF-8 round trip of `Utf8.appendRune_decodeRuneInString`;
* `toUpper_eq_mapRest`: `strings.ToUpper` upper-cases every rune by
  `unicode.ToUpper`, ASCII or not, and writes it back.
-/

namespace Go

namespace Unicode

/-- `unicode.MaxASCII`. -/
def maxASCII : Rune := 0x7F

/-- A row of `unicode.CaseRanges`: the runes `lo..hi` and the delta that maps
    them to upper case (`Delta[UpperCase]`; the lower- and title-case deltas
    are not read by `ToUpper`). A delta past `MaxRune` (`UpperLower`) marks a
    run of letters alternating upper and lower case. -/
structure CaseRange where
  lo : Nat
  hi : Nat
  upper : Int

/-- `unicode.to(UpperCase, r, caseRanges)`: the row holding `r` maps it by its
    delta, or, in an `UpperLower` run, to the even offset from `lo` (the low
    bit of `UpperCase` is zero); a rune in no row is its own upper case. The
    rows are sorted and disjoint, so the binary search of `to` finds the one
    row this search finds. -/
def toUpperCase (caseRanges : List CaseRange) (r : Rune) : Rune :=
  match caseRanges.find? fun cr => cr.lo ≤ r && r ≤ cr.hi with
  | none => r
  | some cr =>
    if Utf8.maxRune < cr.upper then cr.lo + (r - cr.lo) / 2 * 2 else r + cr.upper

/-- The rows of Go's `unicode.CaseRanges` for `U+0041..U+017F` (Basic Latin,
    Latin-1 Supplement and Latin Extended-A) with their upper-case deltas,
    `0x110000` standing for `UpperLower`. The table is sorted, so on these runes
    it maps as the whole table does. -/
def latinCaseRanges : List CaseRange :=
  [⟨0x0041, 0x005A, 0⟩, ⟨0x0061, 0x007A, -32⟩, ⟨0x00B5, 0x00B5, 743⟩, ⟨0x00C0, 0x00D6, 0⟩,
   ⟨0x00D8, 0x00DE, 0⟩, ⟨0x00E0, 0x00F6, -32⟩, ⟨0x00F8, 0x00FE, -32⟩, ⟨0x00FF, 0x00FF, 121⟩,
   ⟨0x0100, 0x012F, 0x110000⟩, ⟨0x0130, 0x0130, 0⟩, ⟨0x0131, 0x0131, -232⟩,
   ⟨0x0132, 0x0137, 0x110000⟩, ⟨0x0139, 0x0148, 0x110000⟩, ⟨0x014A, 0x0177, 0x110000⟩,
   ⟨0x0178, 0x0178, 0⟩, ⟨0x0179, 0x017E, 0x110000⟩, ⟨0x017F, 0x017F, -300⟩]

/-- `unicode.ToUpper(r)`: ASCII by hand, `r -= 'a' - 'A'` on `'a'..'z'`, and
    every other rune through the table. -/
def toUpper (caseRanges : List CaseRange) (r : Rune) : Rune :=
  if r ≤ maxASCII then (if 0x61 ≤ r ∧ r ≤ 0x7A then r - 0x20 else r)
  else toUpperCase caseRanges r

end Unicode

namespace Strings

/-- `strings.Split(s, sep)` for a one-byte separator: the pieces of `s`
    between the separators, one more than there are separators. -/
def split (s : Bytes) (sep : UInt8) : List Bytes :=
  match s with
  | [] => [[]]
  | b :: s => if b = sep then [] :: split s sep else (split s sep).modifyHead (b :: ·)

/-- `strings.SplitN(s, sep, n)` for a one-byte separator and `n ≥ 0`: at most
    `n` pieces, the last one holding the rest of `s` unsplit. -/
def splitN (s : Bytes) (sep : UInt8) : Nat → List Bytes
  | 0 => []
  | 1 => [s]
  | n + 2 =>
    match s.span (· != sep) with
    | (w, []) => [w]
    | (w, _ :: rest) => w :: splitN rest sep (n + 1)

/-- Cut at the first separator. -/
theorem splitN_append (w r : Bytes) (sep : UInt8) (n : Nat) (hw : sep ∉ w) :
    splitN (w ++ sep :: r) sep (n + 2) = w :: splitN r sep (n + 1) := by
  have hp : ∀ b ∈ w, (b != sep) = true := fun b hb => bne_iff_ne.2 fun h => hw (h ▸ hb)
  simp [splitN, List.span_eq_take_drop, List.takeWhile_append_of_pos hp,
    List.dropWhile_append_of_pos hp]

/-- With no separator, there is one piece. -/
theorem splitN_of_not_mem (w : Bytes) (sep : UInt8) (n : Nat) (hw : sep ∉ w) :
    splitN w sep (n + 1) = [w] := by
  have hp : ∀ b ∈ w, (b != sep) = true := fun b hb => bne_iff_ne.2 fun h => hw (h ▸ hb)
  cases n with
  | zero => rfl
  | succ n =>
    simp [splitN, List.span_eq_take_drop, List.takeWhile_eq_self_iff.2 hp,
      List.dropWhile_eq_nil_iff.2 hp]

/-- `strings.SplitN(s, sep, 2)`: `s` whole when it holds no separator, and
    otherwise the parts before and after the first one. -/
theorem splitN_two (s : Bytes) (sep : UInt8) :
    (sep ∉ s ∧ splitN s sep 2 = [s]) ∨
      ∃ w r, s = w ++ sep :: r ∧ sep ∉ w ∧ splitN s sep 2 = [w, r] := by
  induction s with
  | nil => exact .inl ⟨List.not_mem_nil _, rfl⟩
  | cons b s ih =>
    by_cases hb : b = sep
    · subst hb
      exact .inr ⟨[], s, rfl, List.not_mem_nil _, splitN_append [] s b 0 (List.not_mem_nil _)⟩
    rcases ih with ⟨hs, -⟩ | ⟨w, r, rfl, hw, -⟩
    · have hbs : sep ∉ b :: s := by simp [hs, Ne.symm hb]
      exact .inl ⟨hbs, splitN_of_not_mem _ sep 1 hbs⟩
    · have hbw : sep ∉ b :: w := by simp [hw, Ne.symm hb]
      exact .inr ⟨b :: w, r, rfl, hbw, splitN_append (b :: w) r sep 0 hbw⟩

/-- `strings.Join(elems, sep)`. -/
def join (elems : List Bytes) (sep : Bytes) : Bytes := sep.intercalate elems

/-- Joined with no separator, the pieces are concatenated. -/
theorem join_nil (elems : List Bytes) : join elems [] = elems.flatten := by
  induction elems with
  | nil => rfl
  | cons e es ih =>
    cases es with
    | nil => simp [join, List.intercalate]
    | cons e' es => simp_all [join, List.intercalate]

/-- The second loop of `strings.Map`: every rune of `s` (an invalid byte read
    as `RuneError`) mapped and written, one mapped to a negative value dropped. -/
def mapRest (mapping : Rune → Rune) (s : Bytes) : Bytes :=
  (((Utf8.toRunes s).map mapping).filter (0 ≤ ·)).flatMap Utf8.appendRune

/-- `strings.Map(mapping, s)`. Its first loop looks for the first rune that
    `mapping` changes or that is an invalid byte (a `RuneError` of width one),
    keeping the bytes before it; it writes that rune mapped, unless negative,
    and leaves the rest to the second loop. With no such rune, `s` itself is
    the result. -/
def map (mapping : Rune → Rune) (s : Bytes) : Bytes :=
  match s with
  | [] => []
  | c :: t =>
    have := (Utf8.decodeRuneInString_width c t).1
    let r := (Utf8.decodeRuneInString (c :: t)).1
    let width := (Utf8.decodeRuneInString (c :: t)).2
    if mapping r = r ∧ (r ≠ Utf8.runeError ∨ width ≠ 1) then
      (c :: t).take width ++ map mapping ((c :: t).drop width)
    else
      (if 0 ≤ mapping r then Utf8.appendRune (mapping r) else []) ++
        mapRest mapping ((c :: t).drop width)
termination_by s.length
decreasing_by simp only [List.length_drop, List.length_cons]; omega

/-- The second loop of `strings.Map` on a non-empty string: the first rune
    mapped and written, unless negative, then the rest. -/
theorem mapRest_cons (mapping : Rune → Rune) (c : UInt8) (t : Bytes) :
    mapRest mapping (c :: t) =
      (if 0 ≤ mapping (Utf8.decodeRuneInString (c :: t)).1 then
        Utf8.appendRune (mapping (Utf8.decodeRuneInString (c :: t)).1) else []) ++
      mapRest mapping ((c :: t).drop (Utf8.decodeRuneInString (c :: t)).2) := by
  by_cases h : 0 ≤ mapping (Utf8.decodeRuneInString (c :: t)).1 <;>
    simp [mapRest, Utf8.toRunes_cons, h]

/-- The first loop of `strings.Map` only saves work: the bytes it copies for a
    rune that `mapping` keeps are, by the UTF-8 round trip, the bytes the
    second loop would write for it. So `strings.Map` maps every rune. -/
theorem map_eq_mapRest (mapping : Rune → Rune) (s : Bytes) : map mapping s = mapRest mapping s := by
  induction s using map.induct mapping with
  | case1 => simp [map, mapRest]
  | case2 c t _ _ _ hkeep ih =>
    rw [map, if_pos hkeep, ih, mapRest_cons, hkeep.1, if_pos (Utf8.decodeRuneInString_nonneg _),
      Utf8.appendRune_decodeRuneInString c t hkeep.2]
  | case3 c t _ _ _ hkeep => rw [map, if_neg hkeep, mapRest_cons]

/-- A byte on the ASCII path of `strings.ToUpper`: `c -= 'a' - 'A'` on
    `'a'..'z'`. -/
def upperASCII (c : UInt8) : UInt8 := if 0x61 ≤ c ∧ c ≤ 0x7A then c - 0x20 else c

/-- `strings.ToUpper(s)`: an all-ASCII `s` has its letters `a..z` shifted by
    hand; any other goes through `strings.Map(unicode.ToUpper, s)`. -/
def toUpper (caseRanges : List Unicode.CaseRange) (s : Bytes) : Bytes :=
  if s.all (· < 0x80) then s.map upperASCII
  else map (Unicode.toUpper caseRanges) s

/-- On ASCII, `strings.ToUpper` does not read the case table. -/
theorem toUpper_of_ascii (caseRanges : List Unicode.CaseRange) {s : Bytes}
    (h : ∀ c ∈ s, c < 0x80) : toUpper caseRanges s = s.map upperASCII := by
  rw [toUpper, if_pos (List.all_eq_true.2 fun c hc => decide_eq_true (h c hc))]

theorem upperASCII_toNat (c : UInt8) :
    (upperASCII c).toNat = if 0x61 ≤ c.toNat ∧ c.toNat ≤ 0x7A then c.toNat - 0x20 else c.toNat := by
  unfold upperASCII
  by_cases h : 0x61 ≤ c.toNat ∧ c.toNat ≤ 0x7A
  · rw [if_pos (show 0x61 ≤ c ∧ c ≤ 0x7A from h), if_pos h,
      UInt8.toNat_sub_of_le _ _ (show (0x20 : UInt8) ≤ c from (show 0x20 ≤ c.toNat by omega))]
    rfl
  · rw [if_neg (show ¬ (0x61 ≤ c ∧ c ≤ 0x7A) from h), if_neg h]

/-- On an ASCII byte, `unicode.ToUpper` makes the shift of `a..z` that
    `strings.ToUpper` makes by hand on an ASCII string. -/
theorem toUpper_ascii (caseRanges : List Unicode.CaseRange) {c : UInt8} (h : c < 0x80) :
    Unicode.toUpper caseRanges c.toNat = (upperASCII c).toNat := by
  have h' : c.toNat < 0x80 := h
  rw [Unicode.toUpper, Unicode.maxASCII, if_pos (show (c.toNat : Int) ≤ 0x7F by omega),
    upperASCII_toNat]
  by_cases hl : 0x61 ≤ c.toNat ∧ c.toNat ≤ 0x7A
  · rw [if_pos (show (0x61 : Int) ≤ c.toNat ∧ (c.toNat : Int) ≤ 0x7A by omega), if_pos hl]
    show (c.toNat : Int) - 0x20 = ((c.toNat - 0x20 : Nat) : Int)
    omega
  · rw [if_neg (show ¬ ((0x61 : Int) ≤ c.toNat ∧ (c.toNat : Int) ≤ 0x7A) by omega), if_neg hl]

/-- Mapping every rune of an ASCII string by `unicode.ToUpper` is the loop
    `strings.ToUpper` runs over it. -/
theorem mapRest_toUpper_of_ascii (caseRanges : List Unicode.CaseRange) {s : Bytes}
    (h : ∀ c ∈ s, c < 0x80) : mapRest (Unicode.toUpper caseRanges) s = s.map upperASCII := by
  induction s with
  | nil => simp [mapRest]
  | cons c s ih =>
    have hc := h c (List.mem_cons_self c s)
    have hu : (upperASCII c).toNat ≤ 0x7F := by
      have : c.toNat < 0x80 := hc
      rw [upperASCII_toNat]; split_ifs <;> omega
    rw [List.map_cons, ← ih fun d hd => h d (List.mem_cons_of_mem c hd), mapRest_cons,
      Utf8.decodeRuneInString_ascii hc, toUpper_ascii caseRanges hc, if_pos (Int.ofNat_nonneg _),
      Utf8.appendRune_one hu, Utf8.toUInt8_toNat]
    rfl

/-- `strings.ToUpper` upper-cases every rune of `s` by `unicode.ToUpper` and
    writes it back, an invalid byte as `U+FFFD`: its loop over an ASCII string
    and the copying first loop of `strings.Map` are shortcuts that do not
    change the result. -/
theorem toUpper_eq_mapRest (caseRanges : List Unicode.CaseRange) (s : Bytes) :
    toUpper caseRanges s = mapRest (Unicode.toUpper caseRanges) s := by
  by_cases h : ∀ c ∈ s, c < 0x80
  · rw [toUpper_of_ascii caseRanges h, mapRest_toUpper_of_ascii caseRanges h]
  · rw [toUpper, if_neg (by simpa using h)]
    exact map_eq_mapRest _ s

end Strings

end Go
