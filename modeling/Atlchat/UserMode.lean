import Atlchat.Commands
import Atlchat.Go.ReadBack

/-!
# User modes

`NewUserModeCommand` reads `MODE <nickname> *( ( "+" / "-" ) *<modes> )`.
It sizes the slice of changes first: the runes of all the flag tokens joined,
less one sign for each token. Then, for every token, `stringToRunes` starts a
goroutine that sends the token's runes on a channel; the first rune received
is the sign, and every later one is written as a change under that sign, at
the next index of the slice.

Here the function is as its caller sees it: the channel of a token stands for
the runes it delivers, `Utf8.toRunes` of the token, which is what its goroutine
sends (`Atlchat.Goroutines` proves that, and that the goroutines refine this
function).

* `newUserModeCommand_error`: the only error is `ErrParseCommand`, and only for
  a token whose first rune is no sign;
* `newUserModeCommand_of_wellFormed`: on non-empty flag tokens that decode
  without `RuneError`, the slice has one entry for every rune after the first
  of a token, the loop fills it, and nothing panics;
* `newUserModeCommand_eq_grammar_iff`: there it returns the changes the
  grammar reads (`grammarChanges`, where a later sign switches the sign)
  exactly when no token has a sign after its first rune;
* `newUserModeCommand_someuser`: a sign inside a token is written as a mode,
  under the token's first sign, instead of switching it;
* `newUserModeCommand_validRune`: every mode it returns is a valid rune, never
  a surrogate half or past `MaxRune`, whatever bytes the tokens hold;
* `newUserModeCommand_split_sequence`: the slice is sized by the runes of the
  tokens joined, while each token is decoded alone, so a multi-byte sequence
  split over two tokens makes `make` or a write panic.
-/

namespace Irc

open Go

/-- `for mode := range modeChange`: every rune `mode` written at `index` as a
    change under `add`, `index` advanced after each; a panic at the first
    index out of the slice. -/
def writeModes (add : Bool) (modes : List Rune) (changes : List ModeChange) (index : Nat) :
    Except Panic (List ModeChange × Nat) :=
  setFrom changes index (modes.map fun mode => ⟨mode, add⟩)

/-- What follows the writes of a token: the rest of the loop, `k`, from the
    slice and index they leave, or their panic. -/
def afterWrites (k : List ModeChange → Nat → Parsed) : Except Panic (List ModeChange × Nat) → Parsed
  | .error p => .panic p
  | .ok (changes, index) => k changes index

/-- The body of the loop for a token whose channel delivers `modeChange`, then
    `k`. `sig := <-modeChange` is the first rune, or the zero rune when the
    channel closes first; it must be `'+'` or `'-'`. -/
def userModeToken (k : List ModeChange → Nat → Parsed) (modeChange : List Rune)
    (changes : List ModeChange) (index : Nat) : Parsed :=
  let sig := modeChange.headD 0
  if sig ≠ 0x2B ∧ sig ≠ 0x2D then .error .parseCommand
  else afterWrites k (writeModes (sig = 0x2B) modeChange.tail changes index)

/-- The loop `for _, arg := range args[1:]` of `NewUserModeCommand`, from the
    slice and `index` so far. -/
def userModeLoop (nickname : Bytes) : List Bytes → List ModeChange → Nat → Parsed
  | [], changes, _ => .ok (.mode nickname changes)
  | arg :: rest, changes, index =>
    userModeToken (userModeLoop nickname rest) (Utf8.toRunes arg) changes index

/-- `NewUserModeCommand(args)`: `args[0]` is the nickname; the slice of changes
    is made with `RuneCountInString(strings.Join(args[1:], "")) - len(args[1:])`
    zero entries. -/
def newUserModeCommand : List Bytes → Parsed
  | [] => .panic .indexOutOfRange
  | nickname :: flags =>
    let n : Int := Utf8.runeCountInString (Strings.join flags []) - flags.length
    if n < 0 then .panic .makeSliceLen
    else userModeLoop nickname flags (List.replicate n.toNat ⟨0, false⟩) 0

/-- `NewChannelModeCommand(args)`: the channel `args[0]`, and nothing decoded
    yet. -/
def newChannelModeCommand : List Bytes → Parsed
  | [] => .panic .indexOutOfRange
  | channel :: _ => .ok (.channelMode channel)

/-- `NewModeCommand(args)`: the target `args[0]` picks channel or user modes,
    by `IsChannel`. -/
def newModeCommand (isChannel : Bytes → Bool) (args : List Bytes) : Parsed :=
  match args with
  | [] => .error .notEnoughArgs
  | target :: _ => if isChannel target then newChannelModeCommand args else newUserModeCommand args

/-- `NewModeCommand` panics only through `NewUserModeCommand`: of a channel
    target it reads only the name. -/
theorem newModeCommand_eq_panic_iff (isChannel : Bytes → Bool) (args : List Bytes) (p : Panic) :
    newModeCommand isChannel args = .panic p ↔
      ∃ target, args.head? = some target ∧ isChannel target = false ∧
        newUserModeCommand args = .panic p := by
  rcases args with _ | ⟨target, rest⟩
  · simp [newModeCommand]
  · cases h : isChannel target <;> simp [newModeCommand, h, newChannelModeCommand]

/-- A flag token whose first rune is `'+'` or `'-'`. -/
def Signed (t : Bytes) : Prop := (Utf8.toRunes t).headD 0 = 0x2B ∨ (Utf8.toRunes t).headD 0 = 0x2D

instance (t : Bytes) : Decidable (Signed t) := inferInstanceAs (Decidable (_ ∨ _))

/-! ## Errors -/

/-- The loop fails only with `ErrParseCommand`, at a token with no sign. -/
theorem userModeLoop_error {nickname : Bytes} {flags : List Bytes} {changes : List ModeChange}
    {index : Nat} {e : ParseError} (h : userModeLoop nickname flags changes index = .error e) :
    e = .parseCommand ∧ ∃ t ∈ flags, ¬ Signed t := by
  induction flags generalizing changes index with
  | nil => cases h
  | cons arg rest ih =>
    simp only [userModeLoop, userModeToken] at h
    split_ifs at h with hs
    · cases h
      exact ⟨rfl, arg, List.mem_cons_self _ _, fun h' => h'.elim hs.1 hs.2⟩
    · revert h
      cases writeModes _ _ _ _ with
      | error p => rintro ⟨⟩
      | ok r =>
        intro h
        obtain ⟨he, t, ht, hn⟩ := ih h
        exact ⟨he, t, List.mem_cons_of_mem _ ht, hn⟩

/-- `NewUserModeCommand` returns no error but `ErrParseCommand`, and that only
    when some token does not start with a sign: when all do, it returns a
    command or panics. -/
theorem newUserModeCommand_error {nickname : Bytes} {flags : List Bytes} {e : ParseError}
    (h : newUserModeCommand (nickname :: flags) = .error e) :
    e = .parseCommand ∧ ∃ t ∈ flags, ¬ Signed t := by
  simp only [newUserModeCommand] at h
  split_ifs at h
  exact userModeLoop_error h

/-! ## Tokens that decode without error -/

/-- The changes a flag token makes: every rune after the first, added when the
    first is `'+'`. -/
def tokenChanges (t : Bytes) : List ModeChange :=
  (Utf8.toRunes t).tail.map fun mode => ⟨mode, (Utf8.toRunes t).headD 0 = 0x2B⟩

/-- The loop writes every token's changes in turn into the zero entries past
    `pre`, when there are enough of them, or stops at a token without a
    sign. -/
theorem userModeLoop_replicate (nickname : Bytes) (flags : List Bytes) (pre : List ModeChange)
    (m : Nat) (hm : (flags.flatMap tokenChanges).length ≤ m) :
    userModeLoop nickname flags (pre ++ List.replicate m ⟨0, false⟩) pre.length =
      if ∀ t ∈ flags, Signed t then
        .ok (.mode nickname (pre ++ flags.flatMap tokenChanges ++
          List.replicate (m - (flags.flatMap tokenChanges).length) ⟨0, false⟩))
      else .error .parseCommand := by
  induction flags generalizing pre m with
  | nil => simp [userModeLoop]
  | cons t flags ih =>
    simp only [List.flatMap_cons, List.length_append] at hm
    simp only [userModeLoop, userModeToken, List.forall_mem_cons]
    by_cases hs : Signed t
    · have hw : writeModes ((Utf8.toRunes t).headD 0 = 0x2B) (Utf8.toRunes t).tail
          (pre ++ List.replicate m ⟨0, false⟩) pre.length =
          .ok (pre ++ tokenChanges t ++ List.replicate (m - (tokenChanges t).length) ⟨0, false⟩,
            (pre ++ tokenChanges t).length) := by
        rw [writeModes, setFrom_replicate, if_pos (by simpa [tokenChanges] using hm.trans' (Nat.le_add_right _ _))]
        simp [tokenChanges]
      rw [if_neg fun h => hs.elim h.1 h.2, hw, afterWrites, ih _ _ (by omega)]
      simp only [hs, true_and, List.append_assoc, Nat.sub_sub, List.flatMap_cons, List.length_append]
    · rw [if_pos ⟨fun h => hs (.inl h), fun h => hs (.inr h)⟩]
      simp [hs]

/-- The changes of all tokens joined: one for each rune after the first of a
    non-empty token. -/
theorem length_flatMap_toRunes {flags : List Bytes} (hf : ∀ t ∈ flags, t ≠ []) :
    (flags.flatMap Utf8.toRunes).length = (flags.flatMap tokenChanges).length + flags.length := by
  induction flags with
  | nil => rfl
  | cons t flags ih =>
    obtain ⟨c, t', rfl⟩ := List.exists_cons_of_ne_nil (hf t (List.mem_cons_self _ _))
    simp only [List.flatMap_cons, List.length_append, List.length_cons, tokenChanges,
      List.length_map, ih fun t ht => hf t (List.mem_cons_of_mem _ ht), Utf8.toRunes_cons,
      List.tail_cons]
    omega

/-- On non-empty flag tokens that decode without `RuneError`, `make` gets one
    entry for every rune after the first of a token. -/
theorem newUserModeCommand_wellFormed_eq (nickname : Bytes) {flags : List Bytes}
    (hf : ∀ t ∈ flags, t ≠ [] ∧ Utf8.runeError ∉ Utf8.toRunes t) :
    newUserModeCommand (nickname :: flags) =
      userModeLoop nickname flags (List.replicate (flags.flatMap tokenChanges).length ⟨0, false⟩) 0 := by
  have hcount : Utf8.runeCountInString (Strings.join flags []) =
      (flags.flatMap tokenChanges).length + flags.length := by
    rw [Strings.join_nil, Utf8.runeCountInString_eq_length,
      Utf8.toRunes_flatten fun t ht => (hf t ht).2, length_flatMap_toRunes fun t ht => (hf t ht).1]
  have hn : (Utf8.runeCountInString (Strings.join flags []) : Int) - flags.length =
      (flags.flatMap tokenChanges).length := by
    rw [hcount]; omega
  simp only [newUserModeCommand, hn, if_neg (Int.not_lt.2 (Int.ofNat_nonneg _)), Int.toNat_ofNat]

/-- The loop run from that slice: it fills it exactly. -/
theorem userModeLoop_exact (nickname : Bytes) (flags : List Bytes) :
    userModeLoop nickname flags (List.replicate (flags.flatMap tokenChanges).length ⟨0, false⟩) 0 =
      if ∀ t ∈ flags, Signed t then .ok (.mode nickname (flags.flatMap tokenChanges))
      else .error .parseCommand := by
  simpa using userModeLoop_replicate nickname flags [] _ (Nat.le_refl _)

/-- On flag tokens that are non-empty and decode without `RuneError`, as all
    non-empty ASCII tokens do, the slice is made with one entry for every rune
    after the first of a token, and the loop fills it: `NewUserModeCommand`
    never panics and leaves no zero entry, returning every token's changes in
    turn, or `ErrParseCommand` for a token without a sign. -/
theorem newUserModeCommand_of_wellFormed (nickname : Bytes) {flags : List Bytes}
    (hf : ∀ t ∈ flags, t ≠ [] ∧ Utf8.runeError ∉ Utf8.toRunes t) :
    newUserModeCommand (nickname :: flags) =
      if ∀ t ∈ flags, Signed t then .ok (.mode nickname (flags.flatMap tokenChanges))
      else .error .parseCommand := by
  rw [newUserModeCommand_wellFormed_eq nickname hf, userModeLoop_exact]

theorem newUserModeCommand_wellFormed_someuser :
    (∀ t ∈ [ascii "+iw-o"], t ≠ [] ∧ Utf8.runeError ∉ Utf8.toRunes t) ∧
      newUserModeCommand [ascii "someuser", ascii "+iw-o"] =
        if ∀ t ∈ [ascii "+iw-o"], Signed t then
          .ok (.mode (ascii "someuser") ([ascii "+iw-o"].flatMap tokenChanges))
        else .error .parseCommand :=
  have hf : ∀ t ∈ [ascii "+iw-o"], t ≠ [] ∧ Utf8.runeError ∉ Utf8.toRunes t := by
    simp only [List.mem_singleton, forall_eq,
      Utf8.toRunes_of_ascii (by decide : ∀ c ∈ ascii "+iw-o", c < 0x80)]
    decide
  ⟨hf, newUserModeCommand_of_wellFormed _ hf⟩

/-! ## Valid runes -/

/-- `setFrom` keeps a property that every entry of the slice and every value
    written have. -/
theorem forall_setFrom {α : Type} {P : α → Prop} {a a' : List α} {i j : Nat} {xs : List α}
    (ha : ∀ y ∈ a, P y) (hxs : ∀ x ∈ xs, P x) (h : setFrom a i xs = .ok (a', j)) : ∀ y ∈ a', P y := by
  induction xs generalizing a i with
  | nil =>
    cases h
    exact ha
  | cons x xs ih =>
    simp only [setFrom, setIndex] at h
    split_ifs at h
    · refine ih (fun y hy => ?_) (fun y hy => hxs y (List.mem_cons_of_mem x hy)) h
      rcases List.mem_or_eq_of_mem_set hy with hy | rfl
      · exact ha y hy
      · exact hxs y (List.mem_cons_self y xs)
    · cases h

theorem afterWrites_eq_ok {k : List ModeChange → Nat → Parsed} {w : Except Panic (List ModeChange × Nat)}
    {cmd : Command} (h : afterWrites k w = .ok cmd) :
    ∃ changes index, w = .ok (changes, index) ∧ k changes index = .ok cmd := by
  rcases w with p | ⟨changes, index⟩
  · cases h
  · exact ⟨changes, index, rfl, h⟩

/-- The loop writes only runes its goroutines decoded, so from a slice of valid
    runes it returns one. -/
theorem userModeLoop_validRune {nickname : Bytes} {flags : List Bytes} {changes : List ModeChange}
    {index : Nat} {nickname' : Bytes} {changes' : List ModeChange}
    (hc : ∀ c ∈ changes, Utf8.validRune c.mode)
    (h : userModeLoop nickname flags changes index = .ok (.mode nickname' changes')) :
    ∀ c ∈ changes', Utf8.validRune c.mode := by
  induction flags generalizing changes index with
  | nil =>
    cases h
    exact hc
  | cons arg rest ih =>
    simp only [userModeLoop, userModeToken] at h
    split_ifs at h
    obtain ⟨changes1, index1, hw, h⟩ := afterWrites_eq_ok h
    refine ih (forall_setFrom hc (fun x hx => ?_) hw) h
    obtain ⟨mode, hm, rfl⟩ := List.mem_map.1 hx
    exact Utf8.validRune_of_mem_toRunes (List.mem_of_mem_tail hm)

/-- The modes `NewUserModeCommand` returns are valid runes: the zero entries
    `make` leaves, and runes `DecodeRuneInString` read, an invalid byte as
    `U+FFFD`. Whatever bytes the tokens hold, no surrogate half and no value
    past `MaxRune` is recorded as a mode. -/
theorem newUserModeCommand_validRune {args : List Bytes} {nickname : Bytes} {changes : List ModeChange}
    (h : newUserModeCommand args = .ok (.mode nickname changes)) : ∀ c ∈ changes, Utf8.validRune c.mode := by
  rcases args with _ | ⟨nick, flags⟩
  · cases h
  simp only [newUserModeCommand] at h
  split_ifs at h
  refine userModeLoop_validRune (fun c hc => ?_) h
  rw [List.eq_of_mem_replicate hc]
  decide

/-- `ED A0 80`, the bytes UTF-8 would give the surrogate `U+D800`: Go reads
    them as three invalid bytes, and the modes are three `U+FFFD`. -/
theorem newUserModeCommand_surrogate :
    newUserModeCommand [ascii "nick", [0x2B, 0xED, 0xA0, 0x80]] =
        .ok (.mode (ascii "nick") (List.replicate 3 ⟨Utf8.runeError, true⟩)) ∧
      ∀ c ∈ List.replicate 3 (⟨Utf8.runeError, true⟩ : ModeChange), Utf8.validRune c.mode := by
  have hrunes : Utf8.toRunes [0x2B, 0xED, 0xA0, 0x80] = [0x2B, Utf8.runeError, Utf8.runeError, Utf8.runeError] := by
    rw [Utf8.toRunes_ascii (by decide), Utf8.toRunes_of_decode (List.cons_ne_nil _ _)
      (by decide : Utf8.decodeRuneInString [0xED, 0xA0, 0x80] = (Utf8.runeError, 1)),
      List.drop_one, List.tail_cons, Utf8.toRunes_of_decode (List.cons_ne_nil _ _)
      (by decide : Utf8.decodeRuneInString [0xA0, 0x80] = (Utf8.runeError, 1)),
      List.drop_one, List.tail_cons, Utf8.toRunes_of_decode (List.cons_ne_nil _ _)
      (by decide : Utf8.decodeRuneInString [0x80] = (Utf8.runeError, 1)), List.drop_one, List.tail_cons,
      Utf8.toRunes_nil]
    rfl
  have h : newUserModeCommand [ascii "nick", [0x2B, 0xED, 0xA0, 0x80]] =
      .ok (.mode (ascii "nick") (List.replicate 3 ⟨Utf8.runeError, true⟩)) := by
    simp [newUserModeCommand, Strings.join_nil, Utf8.runeCountInString_eq_length, hrunes, userModeLoop,
      userModeToken, writeModes, setIndex]
    decide
  exact ⟨h, newUserModeCommand_validRune h⟩

/-! ## The grammar's reading of a token -/

/-- The changes the grammar `( "+" / "-" ) *modes` reads in the runes after a
    token's first, under the sign `add`: a later `'+'` or `'-'` switches the
    sign and is no mode. This is the reading the spec asks for, to compare with
    `tokenChanges`. -/
def grammarModes (add : Bool) : List Rune → List ModeChange
  | [] => []
  | r :: rs =>
    if r = 0x2B then grammarModes true rs
    else if r = 0x2D then grammarModes false rs
    else ⟨r, add⟩ :: grammarModes add rs

/-- The grammar's changes of a flag token, under its first rune's sign. -/
def grammarChanges (t : Bytes) : List ModeChange :=
  grammarModes ((Utf8.toRunes t).headD 0 = 0x2B) (Utf8.toRunes t).tail

theorem length_grammarModes_le (add : Bool) (rs : List Rune) :
    (grammarModes add rs).length ≤ rs.length := by
  induction rs generalizing add with
  | nil => simp [grammarModes]
  | cons r rs ih =>
    simp only [grammarModes, List.length_cons]
    split_ifs
    · exact Nat.le_succ_of_le (ih true)
    · exact Nat.le_succ_of_le (ih false)
    · simpa using ih add

/-- The grammar reads a run of runes as the code does, every rune a mode under
    one sign, exactly when no sign comes later. -/
theorem grammarModes_eq_map_iff (add : Bool) (rs : List Rune) :
    grammarModes add rs = rs.map (fun mode => ⟨mode, add⟩) ↔ 0x2B ∉ rs ∧ 0x2D ∉ rs := by
  induction rs with
  | nil => simp [grammarModes]
  | cons r rs ih =>
    -- a sign read as a switch leaves the grammar's list shorter than the code's
    have hlen : ∀ b, grammarModes b rs ≠ (r :: rs).map (fun mode => ⟨mode, add⟩) := fun b h => by
      have := congrArg List.length h
      have := length_grammarModes_le b rs
      simp only [List.length_map, List.length_cons] at *
      omega
    by_cases hp : r = 0x2B
    · subst hp
      simpa [grammarModes] using hlen true
    by_cases hm : r = 0x2D
    · subst hm
      simpa [grammarModes] using hlen false
    simp [grammarModes, hp, hm, ih, Ne.symm hp, Ne.symm hm]

/-- Two lists of pieces, those of `g` never longer than those of `f`, join to
    the same list exactly when they agree piece by piece. -/
theorem flatMap_eq_flatMap_iff {α β : Type} {f g : α → List β} (h : ∀ a, (g a).length ≤ (f a).length)
    (l : List α) : l.flatMap f = l.flatMap g ↔ ∀ a ∈ l, f a = g a := by
  have hle : ∀ l : List α, (l.flatMap g).length ≤ (l.flatMap f).length := fun l => by
    induction l with
    | nil => simp
    | cons a l ih => simp only [List.flatMap_cons, List.length_append]; have := h a; omega
  induction l with
  | nil => simp
  | cons a l ih =>
    simp only [List.flatMap_cons, List.forall_mem_cons, ← ih]
    refine ⟨fun he => List.append_inj he ?_, fun ⟨h1, h2⟩ => by rw [h1, h2]⟩
    have := congrArg List.length he
    have := h a
    have := hle l
    simp only [List.length_append] at *
    omega

/-- Over a list of tokens: the code's changes are the grammar's exactly when no
    token has a sign after its first rune. -/
theorem flatMap_tokenChanges_eq_iff (flags : List Bytes) :
    flags.flatMap tokenChanges = flags.flatMap grammarChanges ↔
      ∀ t ∈ flags, 0x2B ∉ (Utf8.toRunes t).tail ∧ 0x2D ∉ (Utf8.toRunes t).tail := by
  rw [flatMap_eq_flatMap_iff fun t => by
    simpa only [grammarChanges, tokenChanges, List.length_map] using length_grammarModes_le _ _]
  refine forall₂_congr fun t _ => ?_
  rw [tokenChanges, grammarChanges, eq_comm, grammarModes_eq_map_iff]

/-- On flag tokens that are non-empty and decode without `RuneError`,
    `NewUserModeCommand` returns the changes the grammar reads exactly when
    every token starts with a sign and has no sign after it. -/
theorem newUserModeCommand_eq_grammar_iff (nickname : Bytes) {flags : List Bytes}
    (hf : ∀ t ∈ flags, t ≠ [] ∧ Utf8.runeError ∉ Utf8.toRunes t) :
    newUserModeCommand (nickname :: flags) = .ok (.mode nickname (flags.flatMap grammarChanges)) ↔
      ∀ t ∈ flags, Signed t ∧ 0x2B ∉ (Utf8.toRunes t).tail ∧ 0x2D ∉ (Utf8.toRunes t).tail := by
  rw [newUserModeCommand_wellFormed_eq nickname hf, userModeLoop_exact]
  by_cases hs : ∀ t ∈ flags, Signed t
  · rw [if_pos hs]
    simp only [Parsed.ok.injEq, Command.mode.injEq, true_and, flatMap_tokenChanges_eq_iff]
    exact ⟨fun h t ht => ⟨hs t ht, h t ht⟩, fun h t ht => (h t ht).2⟩
  · rw [if_neg hs]
    simp only [reduceCtorEq, false_iff]
    exact fun h => hs fun t ht => (h t ht).1

theorem newUserModeCommand_grammar_someuser :
    (∀ t ∈ [ascii "+iw-o"], t ≠ [] ∧ Utf8.runeError ∉ Utf8.toRunes t) ∧
      (newUserModeCommand [ascii "someuser", ascii "+iw-o"] =
          .ok (.mode (ascii "someuser") ([ascii "+iw-o"].flatMap grammarChanges)) ↔
        ∀ t ∈ [ascii "+iw-o"],
          Signed t ∧ 0x2B ∉ (Utf8.toRunes t).tail ∧ 0x2D ∉ (Utf8.toRunes t).tail) :=
  have hf : ∀ t ∈ [ascii "+iw-o"], t ≠ [] ∧ Utf8.runeError ∉ Utf8.toRunes t := by
    simp only [List.mem_singleton, forall_eq,
      Utf8.toRunes_of_ascii (by decide : ∀ c ∈ ascii "+iw-o", c < 0x80)]
    decide
  ⟨hf, newUserModeCommand_eq_grammar_iff _ hf⟩

/-! ## Two tokens of the grammar -/

/-- `MODE someuser +iw-o`: the `-` is written as a mode of its own, added like
    the others, and `o` is added, not removed. -/
theorem newUserModeCommand_someuser :
    newUserModeCommand [ascii "someuser", ascii "+iw-o"] =
      .ok (.mode (ascii "someuser") [⟨0x69, true⟩, ⟨0x77, true⟩, ⟨0x2D, true⟩, ⟨0x6F, true⟩]) := by
  have h : Utf8.toRunes (ascii "+iw-o") = [0x2B, 0x69, 0x77, 0x2D, 0x6F] :=
    Utf8.toRunes_of_ascii (by decide)
  simp [newUserModeCommand, Strings.join_nil, Utf8.runeCountInString_eq_length, h, userModeLoop,
    userModeToken, writeModes, setIndex]
  decide

/-- The euro sign `E2 82 AC` split over two tokens. Without signs, the slice
    is made with `1 - 2` entries; with a sign before it, with none, and the
    first token alone still writes two `RuneError`s into it. -/
theorem newUserModeCommand_split_sequence :
    newUserModeCommand [ascii "nick", [0xE2, 0x82], [0xAC]] = .panic .makeSliceLen ∧
      newUserModeCommand [ascii "nick", [0x2B, 0xE2, 0x82], [0xAC]] = .panic .indexOutOfRange := by
  have euro : Utf8.toRunes [0xE2, 0x82, 0xAC] = [0x20AC] := by
    rw [Utf8.toRunes_of_decode (List.cons_ne_nil _ _)
      (by decide : Utf8.decodeRuneInString [0xE2, 0x82, 0xAC] = (0x20AC, 3))]
    simp
  have joined : Utf8.toRunes [0x2B, 0xE2, 0x82, 0xAC] = [0x2B, 0x20AC] := by
    rw [Utf8.toRunes_ascii (by decide), euro]; rfl
  have first : Utf8.toRunes [0x2B, 0xE2, 0x82] = [0x2B, Utf8.runeError, Utf8.runeError] := by
    rw [Utf8.toRunes_ascii (by decide), Utf8.toRunes_of_decode (List.cons_ne_nil _ _)
      (by decide : Utf8.decodeRuneInString [0xE2, 0x82] = (Utf8.runeError, 1))]
    rw [List.drop_one, List.tail_cons, Utf8.toRunes_of_decode (List.cons_ne_nil _ _)
      (by decide : Utf8.decodeRuneInString [0x82] = (Utf8.runeError, 1))]
    simp
  constructor
  · simp [newUserModeCommand, Strings.join_nil, Utf8.runeCountInString_eq_length, euro]
  · simp [newUserModeCommand, Strings.join_nil, Utf8.runeCountInString_eq_length, joined, first,
      userModeLoop, writeModes, setIndex]
    rfl

end Irc
