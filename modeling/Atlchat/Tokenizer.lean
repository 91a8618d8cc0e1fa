import Atlchat.Commands

/-!
# The tokenizer

`parseLine` splits a line into its verb and its arguments, calling
`parseArg` to peel one argument at a time off the front: after a leading `:`
(the trailing parameter) the whole rest of the line, verbatim; otherwise the
text up to the first space. The loop stops at the first empty argument, so
every argument it keeps is non-empty. The first one, upper-cased, is the verb;
a line with no argument at all leaves `args[0]` out of range.

* `parseLine_encodeLine`: the tokenizer inverts the wire encoding. A verb,
  any number of middle parameters and an optional trailing parameter, written
  with single spaces and a `:` before the trailing one, come back verbatim and
  in order, and nothing follows the trailing parameter;
* `parseArgs_dropped`: the loop stops at the first empty argument, so a double
  space, or a space before a lone `:` or the end, silently drops the rest of
  the line;
* `parseLine_eq_error_iff`: `parseLine` panics exactly on a line that is empty,
  is `:` alone, or starts with a space;
* `parseArgs_decompose`: conversely, every line is the wire encoding of what
  the loop returns followed by a rest it drops, so these are the only ways
  input is lost. A line that starts with `:` is read whole as one argument.
-/

namespace Irc

open Go

/-- `parseArg(line)`: the first argument of `line` and the rest after it. On
    a line that does not start with `:`, `strings.SplitN(line, " ", 2)`
    returns one or two parts, so `parts[0]` is always there. -/
def parseArg (line : Bytes) : Bytes × Bytes :=
  if line = [] then ([], [])
  else if line.head? = some 0x3A then (line.drop 1, [])
  else
    let parts := Strings.splitN line 0x20 2
    (parts.headD [], parts.getD 1 [])

/-- An argument peeled off leaves a shorter rest. -/
theorem parseArg_rest_lt (line : Bytes) (h : (parseArg line).1 ≠ []) :
    (parseArg line).2.length < line.length := by
  unfold parseArg at *
  split_ifs at * with h0 h1
  · exact absurd rfl h
  · exact List.length_pos.2 h0
  · rcases Strings.splitN_two line 0x20 with ⟨-, hs⟩ | ⟨w, r, rfl, -, hs⟩
    · simpa [hs] using List.length_pos.2 h0
    · simp [hs]; omega

/-- The loop of `parseLine`: the arguments it appends, from `line` on, up to
    the first empty one. -/
def parseArgs (line : Bytes) : List Bytes :=
  if h : (parseArg line).1 = [] then []
  else
    have := parseArg_rest_lt line h
    (parseArg line).1 :: parseArgs (parseArg line).2
termination_by line.length

/-- `parseLine(line)`: the verb, upper-cased by `strings.ToUpper`, and the
    arguments after it; or the panic of `args[0]` when the line has none. -/
def parseLine (caseRanges : List Unicode.CaseRange) (line : Bytes) :
    Except Panic (Bytes × List Bytes) :=
  match parseArgs line with
  | [] => .error .indexOutOfRange
  | command :: args => .ok (Strings.toUpper caseRanges command, args)

theorem parseArgs_eq (line : Bytes) :
    parseArgs line =
      if (parseArg line).1 = [] then [] else (parseArg line).1 :: parseArgs (parseArg line).2 := by
  rw [parseArgs]; split_ifs <;> rfl

@[simp] theorem parseArgs_nil : parseArgs [] = [] := by
  rw [parseArgs_eq]; simp [parseArg]

/-! ## The lines with no argument -/

/-- `parseArg` finds no argument exactly on an empty line, on `:` alone, and on
    a line that starts with a space. -/
theorem parseArg_fst_eq_nil_iff (line : Bytes) :
    (parseArg line).1 = [] ↔ line = [] ∨ line = [0x3A] ∨ line.head? = some 0x20 := by
  rcases line with _ | ⟨b, t⟩
  · simp [parseArg]
  by_cases hc : b = 0x3A
  · subst hc
    simp [parseArg]
  · have hs : (parseArg (b :: t)).1 = ((Strings.splitN (b :: t) 0x20 2).headD []) := by
      simp [parseArg, hc]
    rw [hs]
    rcases Strings.splitN_two (b :: t) 0x20 with ⟨hsp, h2⟩ | ⟨w, r, hbt, hw, h2⟩
    · have hb : b ≠ 0x20 := fun h => hsp (h ▸ List.mem_cons_self _ _)
      simp [h2, hc, hb]
    · rw [h2, hbt]
      rcases w with _ | ⟨b', w⟩
      · simp
      · simp [Ne.symm (List.ne_of_not_mem_cons hw)]

/-- `parseLine` panics exactly on an empty line, on `:` alone, and on a line
    that starts with a space: the lines whose first argument is empty. -/
theorem parseLine_eq_error_iff (caseRanges : List Unicode.CaseRange) (line : Bytes) (p : Panic) :
    parseLine caseRanges line = .error p ↔
      p = .indexOutOfRange ∧ (line = [] ∨ line = [0x3A] ∨ line.head? = some 0x20) := by
  rw [← parseArg_fst_eq_nil_iff, parseLine, parseArgs_eq]
  by_cases h : (parseArg line).1 = [] <;> simp [h, eq_comm]

/-! ## The wire encoding -/

/-- A token of the grammar other than the trailing parameter (a verb, or a
    `middle`): non-empty, without a space, and not starting with `:`. -/
def Middle (m : Bytes) : Prop := m ≠ [] ∧ 0x20 ∉ m ∧ m.head? ≠ some 0x3A

instance (m : Bytes) : Decidable (Middle m) := inferInstanceAs (Decidable (_ ∧ _ ∧ _))

/-- The parameters on the wire: `*( SP middle ) [ SP ":" trailing ]`. -/
def encodeParams (middles : List Bytes) (trailing : Option Bytes) : Bytes :=
  (middles.map (0x20 :: ·)).flatten ++ (trailing.map (0x20 :: 0x3A :: ·)).getD []

/-- A line on the wire: a verb, then its parameters. -/
def encodeLine (verb : Bytes) (middles : List Bytes) (trailing : Option Bytes) : Bytes :=
  verb ++ encodeParams middles trailing

theorem parseArg_middle {m : Bytes} (hm : Middle m) (r : Bytes) :
    parseArg (m ++ 0x20 :: r) = (m, r) := by
  obtain ⟨hne, hsp, hc⟩ := hm
  have hne' : m ++ 0x20 :: r ≠ [] := by simp
  have hc' : (m ++ 0x20 :: r).head? ≠ some 0x3A := by rwa [List.head?_append_of_ne_nil _ hne]
  rw [parseArg, if_neg hne', if_neg hc', Strings.splitN_append m r _ 0 hsp]
  rfl

theorem parseArg_of_middle {m : Bytes} (hm : Middle m) : parseArg m = (m, []) := by
  obtain ⟨hne, hsp, hc⟩ := hm
  simp [parseArg, hne, hc, Strings.splitN_of_not_mem m _ 1 hsp]

theorem parseArg_trailing (t : Bytes) : parseArg (0x3A :: t) = (t, []) := by
  simp [parseArg]

/-- After a first token, the loop reads the parameters back as they were
    written. -/
theorem parseArgs_encodeParams {w : Bytes} (hw : Middle w) {middles : List Bytes}
    (hm : ∀ m ∈ middles, Middle m) {trailing : Option Bytes} (ht : ∀ t ∈ trailing, t ≠ []) :
    parseArgs (w ++ encodeParams middles trailing) = w :: (middles ++ trailing.toList) := by
  induction middles generalizing w with
  | nil =>
    cases trailing with
    | none =>
      rw [parseArgs_eq, encodeParams]
      simp [parseArg_of_middle hw, hw.1]
    | some t =>
      have h1 : w ++ encodeParams [] (some t) = w ++ 0x20 :: 0x3A :: t := rfl
      have h2 : t ≠ [] := ht t rfl
      rw [h1, parseArgs_eq, parseArg_middle hw, if_neg hw.1, parseArgs_eq, parseArg_trailing,
        if_neg h2]
      simp
  | cons m ms ih =>
    have h1 : w ++ encodeParams (m :: ms) trailing = w ++ 0x20 :: (m ++ encodeParams ms trailing) := by
      simp [encodeParams]
    have hm' := hm m (List.mem_cons_self m ms)
    rw [h1, parseArgs_eq, parseArg_middle hw, if_neg hw.1,
      ih hm' fun m' h' => hm m' (List.mem_cons_of_mem m h')]
    rfl

/-- The loop stops at the first empty argument and drops the rest of the line:
    after a first token and middle parameters, a space followed by a rest that
    is empty, `:` alone, or starts with a space (two spaces in a row) ends the
    arguments, and nothing after it is read. -/
theorem parseArgs_dropped {w : Bytes} (hw : Middle w) {middles : List Bytes}
    (hm : ∀ m ∈ middles, Middle m) {r : Bytes} (hr : r = [] ∨ r = [0x3A] ∨ r.head? = some 0x20) :
    parseArgs (w ++ encodeParams middles none ++ 0x20 :: r) = w :: middles := by
  induction middles generalizing w with
  | nil =>
    rw [encodeParams, List.map_nil, List.flatten_nil, List.nil_append, Option.map_none',
      Option.getD_none, List.append_nil, parseArgs_eq, parseArg_middle hw, if_neg hw.1, parseArgs_eq,
      if_pos ((parseArg_fst_eq_nil_iff r).2 hr)]
  | cons m ms ih =>
    have h1 : w ++ encodeParams (m :: ms) none ++ 0x20 :: r =
        w ++ 0x20 :: (m ++ encodeParams ms none ++ 0x20 :: r) := by
      simp [encodeParams]
    rw [h1, parseArgs_eq, parseArg_middle hw, if_neg hw.1,
      ih (hm m (List.mem_cons_self m ms)) fun m' h' => hm m' (List.mem_cons_of_mem m h')]

theorem parseArgs_double_space :
    Middle (ascii "PRIVMSG") ∧ (∀ m ∈ [ascii "#a"], Middle m) ∧
      (ascii " :hi" = [] ∨ ascii " :hi" = [0x3A] ∨ (ascii " :hi").head? = some 0x20) ∧
      parseArgs (ascii "PRIVMSG" ++ encodeParams [ascii "#a"] none ++ 0x20 :: ascii " :hi") =
        [ascii "PRIVMSG", ascii "#a"] :=
  have hw : Middle (ascii "PRIVMSG") := by decide
  have hm : ∀ m ∈ [ascii "#a"], Middle m := by decide
  have hr : ascii " :hi" = [] ∨ ascii " :hi" = [0x3A] ∨ (ascii " :hi").head? = some 0x20 := by decide
  ⟨hw, hm, hr, parseArgs_dropped hw hm hr⟩

/-- The tokenizer inverts the wire encoding: the verb comes back upper-cased,
    every parameter verbatim and in order, and nothing after the trailing one. -/
theorem parseLine_encodeLine (caseRanges : List Unicode.CaseRange) {verb : Bytes}
    (hv : Middle verb) {middles : List Bytes} (hm : ∀ m ∈ middles, Middle m)
    {trailing : Option Bytes} (ht : ∀ t ∈ trailing, t ≠ []) :
    parseLine caseRanges (encodeLine verb middles trailing) =
      .ok (Strings.toUpper caseRanges verb, middles ++ trailing.toList) := by
  rw [parseLine, encodeLine, parseArgs_encodeParams hv hm ht]

theorem parseLine_privmsg :
    Middle (ascii "PRIVMSG") ∧ (∀ m ∈ [ascii "#room"], Middle m) ∧
      (∀ t ∈ some (ascii "hello there friend"), t ≠ []) ∧
      parseLine [] (encodeLine (ascii "PRIVMSG") [ascii "#room"] (some (ascii "hello there friend"))) =
        .ok (Strings.toUpper [] (ascii "PRIVMSG"), [ascii "#room", ascii "hello there friend"]) :=
  have hv : Middle (ascii "PRIVMSG") := by decide
  have hm : ∀ m ∈ [ascii "#room"], Middle m := by decide
  have ht : ∀ t ∈ some (ascii "hello there friend"), t ≠ [] := by simp [ascii]
  ⟨hv, hm, ht, parseLine_encodeLine [] hv hm ht⟩

/-! ## What the loop reads from any line -/

/-- Every line is read as the wire encoding of what the loop returns, then a
    rest it never reads. Either the first argument is empty and nothing is
    read; or a line that starts with `:` is one trailing parameter; or there
    is a first token, middle parameters and at most one trailing parameter,
    written with single spaces, followed after the trailing parameter by
    nothing, and otherwise by nothing or by a space before a rest whose first
    argument is empty. -/
theorem parseArgs_decompose (line : Bytes) :
    parseArgs line = [] ∧ (line = [] ∨ line = [0x3A] ∨ line.head? = some 0x20) ∨
    (∃ t, t ≠ [] ∧ line = 0x3A :: t ∧ parseArgs line = [t]) ∨
    ∃ w middles trailing rest, Middle w ∧ (∀ m ∈ middles, Middle m) ∧ (∀ t ∈ trailing, t ≠ []) ∧
      line = w ++ encodeParams middles trailing ++ rest ∧
      parseArgs line = w :: (middles ++ trailing.toList) ∧
      (rest = [] ∨ trailing = none ∧
        ∃ r, rest = 0x20 :: r ∧ (r = [] ∨ r = [0x3A] ∨ r.head? = some 0x20)) := by
  induction line using parseArgs.induct with
  | case1 line h =>
    rw [parseArgs_eq, if_pos h]
    exact .inl ⟨rfl, (parseArg_fst_eq_nil_iff line).1 h⟩
  | case2 line h _ ih =>
    have hne := mt (parseArg_fst_eq_nil_iff line).2 h
    rw [parseArgs_eq, if_neg h]
    rcases line with _ | ⟨b, t⟩
    · simp at hne
    by_cases hc : b = 0x3A
    · -- a line that starts with `:` is one trailing parameter
      subst hc
      rw [parseArg_trailing] at h ⊢
      exact .inr (.inl ⟨t, h, rfl, by rw [parseArgs_nil]⟩)
    rcases Strings.splitN_two (b :: t) 0x20 with ⟨hsp, -⟩ | ⟨w, r, hbt, hw, -⟩
    · -- no space: the line is one token
      have hm : Middle (b :: t) := ⟨List.cons_ne_nil _ _, hsp, by simpa using hc⟩
      rw [parseArg_of_middle hm, parseArgs_nil]
      exact .inr (.inr ⟨b :: t, [], none, [], hm, by simp, by simp, by simp [encodeParams], rfl, .inl rfl⟩)
    -- a first token, then the arguments of the rest after the space
    have hwne : w ≠ [] := by
      rintro rfl
      simp at hbt
      simp [hbt] at hne
    have hm : Middle w := ⟨hwne, hw, by
      rw [← List.head?_append_of_ne_nil _ hwne, ← hbt]; simpa using hc⟩
    rw [hbt, parseArg_middle hm] at ih ⊢
    rcases ih with ⟨hr, hr'⟩ | ⟨t', ht', rfl, hr⟩ | ⟨w', ms, tr, rest, hw', hms, htr, rfl, hr, hrest⟩
    · exact .inr (.inr ⟨w, [], none, 0x20 :: r, hm, by simp, by simp, by simp [encodeParams],
        by simp [hr], .inr ⟨rfl, r, rfl, hr'⟩⟩)
    · exact .inr (.inr ⟨w, [], some t', [], hm, by simp, by simpa using ht', by simp [encodeParams],
        by simp [hr], .inl rfl⟩)
    · refine .inr (.inr ⟨w, w' :: ms, tr, rest, hm, ?_, htr, by simp [encodeParams], by rw [hr]; rfl, hrest⟩)
      exact fun m hm' => (List.mem_cons.1 hm').elim (· ▸ hw') (hms m)

end Irc
