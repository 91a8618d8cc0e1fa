import Atlchat.Go.Strings

/-!
# The binary search of `unicode.to`

`unicode.ToUpper` maps a rune past ASCII by `To(UpperCase, r)`, which finds
the row of `unicode.CaseRanges` holding the rune by a binary search over the
table: `to` halves the rows `lo..hi-1` still in question at the middle row,
going below it when the rune is under its `Lo` and above it otherwise.
`toUpperCase`, which the parser's model calls, reads the rows in turn instead.
The two agree on every table Go could hold, one whose rows are non-empty and
increasing (`Sorted`).

* `toSearch_of_holds`: a search over a window of a sorted table that holds the
  rune in one of its rows finds that row, as every row it passes over tells
  on which side that row lies;
* `toSearch_of_not_holds`: a search over rows none of which holds the rune
  maps it to itself and reports no mapping;
* `toCase_eq`: so the binary search maps every rune as `toUpperCase` does, and
  reports a mapping exactly when some row holds the rune.
-/

namespace Go

namespace Unicode

/-- The loop of `unicode.to(UpperCase, r, caseRange)` while it searches the
    rows `lo..hi-1`: the middle row `m = (lo + hi) >> 1` maps `r` if it holds
    it (by its delta, or in an `UpperLower` run to the even offset from `lo`,
    `(r - lo) &^ 1`); otherwise the search goes on below `m` or above it. -/
def toSearch (caseRange : List CaseRange) (r : Rune) (lo hi : Nat) : Rune × Bool :=
  if lo < hi then
    let m := (lo + hi) >>> 1
    match caseRange[m]? with
    | none => (r, false)
    | some cr =>
      if cr.lo ≤ r ∧ r ≤ cr.hi then
        if Utf8.maxRune < cr.upper then (cr.lo + (r - cr.lo) / 2 * 2, true)
        else (r + cr.upper, true)
      else if r < cr.lo then toSearch caseRange r lo m
      else toSearch caseRange r (m + 1) hi
  else (r, false)
termination_by hi - lo
decreasing_by all_goals simp only [Nat.shiftRight_eq_div_pow, Nat.pow_one]; omega

/-- `unicode.to(UpperCase, r, caseRange)` (`to` is a keyword of Lean): the
    binary search over all the rows, with the rune it maps `r` to and whether a
    row held `r`. -/
def toCase (caseRange : List CaseRange) (r : Rune) : Rune × Bool :=
  toSearch caseRange r 0 caseRange.length

/-- Go's case tables: every row non-empty, and every row below the rows after
    it. -/
def Sorted (caseRange : List CaseRange) : Prop :=
  (∀ cr ∈ caseRange, cr.lo ≤ cr.hi) ∧ caseRange.Pairwise fun a b => a.hi < b.lo

instance (caseRange : List CaseRange) : Decidable (Sorted caseRange) :=
  inferInstanceAs (Decidable (_ ∧ _))

theorem mid_lt {lo hi : Nat} (h : lo < hi) : lo ≤ (lo + hi) >>> 1 ∧ (lo + hi) >>> 1 < hi := by
  rw [Nat.shiftRight_eq_div_pow, Nat.pow_one]; omega

variable {caseRange : List CaseRange} {r : Rune}

/-- A search over rows none of which holds `r` finds no mapping. -/
theorem toSearch_of_not_holds {lo hi : Nat}
    (h : ∀ j (hj : j < caseRange.length), lo ≤ j → j < hi →
      ¬ (caseRange[j].lo ≤ r ∧ r ≤ caseRange[j].hi)) :
    toSearch caseRange r lo hi = (r, false) := by
  induction lo, hi using toSearch.induct caseRange r with
  | case1 lo hi hlt m hm => rw [toSearch, if_pos hlt]; dsimp only; rw [show caseRange[(lo + hi) >>> 1]? = none from hm]
  | case2 lo hi hlt m cr hm hin | case3 lo hi hlt m cr hm hin =>
    obtain ⟨hmlen, rfl⟩ := List.getElem?_eq_some_iff.1 hm
    exact absurd hin (h m hmlen (mid_lt hlt).1 (mid_lt hlt).2)
  | case4 lo hi hlt m cr hm hin hbelow ih =>
    rw [toSearch, if_pos hlt]; dsimp only; rw [show caseRange[(lo + hi) >>> 1]? = some cr from hm]
    simp only [if_neg hin, if_pos hbelow]
    exact ih fun j hj h1 h2 => h j hj h1 (by omega)
  | case5 lo hi hlt m cr hm hin hbelow ih =>
    rw [toSearch, if_pos hlt]; dsimp only; rw [show caseRange[(lo + hi) >>> 1]? = some cr from hm]
    simp only [if_neg hin, if_neg hbelow]
    exact ih fun j hj h1 h2 => h j hj (by omega) h2
  | case6 lo hi hge => rw [toSearch, if_neg hge]

/-- In a sorted table at most one row holds a rune. -/
theorem holds_unique (hs : Sorted caseRange) {i j : Nat} (hi : i < caseRange.length)
    (hj : j < caseRange.length) (hri : caseRange[i].lo ≤ r ∧ r ≤ caseRange[i].hi)
    (hrj : caseRange[j].lo ≤ r ∧ r ≤ caseRange[j].hi) : i = j := by
  have hi' : (caseRange[i].lo : Int) ≤ r ∧ (caseRange[i].hi : Int) ≥ r := hri
  have hj' : (caseRange[j].lo : Int) ≤ r ∧ (caseRange[j].hi : Int) ≥ r := hrj
  rcases Nat.lt_trichotomy i j with hij | rfl | hji
  · have := List.pairwise_iff_getElem.1 hs.2 i j hi hj hij; omega
  · rfl
  · have := List.pairwise_iff_getElem.1 hs.2 j i hj hi hji; omega

/-- A search over rows of a sorted table one of which holds `r` finds that row
    and maps `r` by it: each row it passes over tells on which side the row
    holding `r` lies. -/
theorem toSearch_of_holds (hs : Sorted caseRange) {j : Nat} (hj : j < caseRange.length)
    (hr : caseRange[j].lo ≤ r ∧ r ≤ caseRange[j].hi) {lo hi : Nat} (hhi : hi ≤ caseRange.length)
    (hlo : lo ≤ j) (hjh : j < hi) :
    toSearch caseRange r lo hi =
      (if Utf8.maxRune < caseRange[j].upper then caseRange[j].lo + (r - caseRange[j].lo) / 2 * 2
        else r + caseRange[j].upper, true) := by
  induction lo, hi using toSearch.induct caseRange r with
  | case1 lo hi hlt m hm =>
    have hm' : lo ≤ m ∧ m < hi := mid_lt hlt
    rw [List.getElem?_eq_none_iff] at hm
    omega
  | case2 lo hi hlt m cr hm hin hup | case3 lo hi hlt m cr hm hin hup =>
    obtain ⟨hmlen, rfl⟩ := List.getElem?_eq_some_iff.1 hm
    obtain rfl := holds_unique hs hmlen hj hin hr
    rw [toSearch, if_pos hlt]
    dsimp only
    rw [show caseRange[(lo + hi) >>> 1]? = some caseRange[m] from hm]
    simp only [if_pos hin, hup, if_true, if_false]
  | case4 lo hi hlt m cr hm hin hbelow ih =>
    obtain ⟨hmlen, rfl⟩ := List.getElem?_eq_some_iff.1 hm
    have hm' : lo ≤ m ∧ m < hi := mid_lt hlt
    -- the row holding `r` lies below `m`
    have hjm : j < m := by
      rcases Nat.lt_or_ge j m with h | h
      · exact h
      rcases Nat.eq_or_lt_of_le h with rfl | h
      · exact absurd hr hin
      have := List.pairwise_iff_getElem.1 hs.2 m j hmlen hj h
      have := hs.1 _ (List.getElem_mem hmlen)
      have hr' : (caseRange[j].lo : Int) ≤ r := hr.1
      have hb : (caseRange[m].lo : Int) > r := hbelow
      omega
    rw [toSearch, if_pos hlt]
    dsimp only
    rw [show caseRange[(lo + hi) >>> 1]? = some caseRange[m] from hm]
    simp only [if_neg hin, if_pos hbelow]
    exact ih (by omega) hlo hjm
  | case5 lo hi hlt m cr hm hin hbelow ih =>
    obtain ⟨hmlen, rfl⟩ := List.getElem?_eq_some_iff.1 hm
    -- the row holding `r` lies above `m`
    have hjm : m < j := by
      rcases Nat.lt_or_ge m j with h | h
      · exact h
      rcases Nat.eq_or_lt_of_le h with rfl | h
      · exact absurd hr hin
      have := List.pairwise_iff_getElem.1 hs.2 j m hj hmlen h
      have hr' : (caseRange[j].hi : Int) ≥ r := hr.2
      have hb : ¬ (caseRange[m].lo : Int) > r := hbelow
      omega
    rw [toSearch, if_pos hlt]
    dsimp only
    rw [show caseRange[(lo + hi) >>> 1]? = some caseRange[m] from hm]
    simp only [if_neg hin, if_neg hbelow]
    exact ih hhi hjm hjh
  | case6 lo hi hge => omega

/-- On a sorted table, the binary search of `unicode.to` maps every rune as
    the linear search `toUpperCase` does, and reports a mapping exactly when
    some row holds the rune. -/
theorem toCase_eq (hs : Sorted caseRange) (r : Rune) :
    toCase caseRange r =
      (toUpperCase caseRange r, (caseRange.find? fun cr => cr.lo ≤ r && r ≤ cr.hi).isSome) := by
  unfold toCase toUpperCase
  cases hf : caseRange.find? fun cr => cr.lo ≤ r && r ≤ cr.hi with
  | none =>
    refine toSearch_of_not_holds fun j hj _ _ hr => List.find?_eq_none.1 hf _ (List.getElem_mem hj) ?_
    simpa using hr
  | some cr =>
    obtain ⟨j, hj, rfl⟩ := List.getElem_of_mem (List.mem_of_find?_eq_some hf)
    have hr := List.find?_some hf
    simp only [Bool.and_eq_true, decide_eq_true_eq] at hr
    exact toSearch_of_holds hs hj hr le_rfl (Nat.zero_le j) hj

theorem toCase_latin :
    Sorted latinCaseRanges ∧ toCase latinCaseRanges 0x131 =
      (toUpperCase latinCaseRanges 0x131,
        (latinCaseRanges.find? fun cr => cr.lo ≤ (0x131 : Rune) && (0x131 : Rune) ≤ cr.hi).isSome) :=
  ⟨by decide, toCase_eq (by decide) 0x131⟩

end Unicode

end Go
