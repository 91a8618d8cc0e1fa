import Atlchat.Tokenizer
import Atlchat.Join
import Atlchat.UserMode
import Atlchat.Go.Split

/-!
# Dispatch

`ParseCommand(line)` splits the line (`parseLine`), looks the upper-cased
verb up in `parseCommandFuncs` and calls the constructor registered under it;
a verb with none makes an `UnknownCommand` of the verb and the arguments.
`strings.ToUpper` maps runes by Go's case table (`caseRanges`), and
`NewModeCommand` calls `IsChannel`, which `commands.go` does not define
(`isChannel`): both are parameters.

* `parseCommand_dispatch`: the constructor registered under a key `K` runs
  exactly when `strings.ToUpper` of the first token is `K`, and any other
  first token makes an `UnknownCommand`; on an ASCII token `strings.ToUpper`
  shifts `a..z` by hand, so there that is equality up to ASCII case;
* `parseCommand_dotless_i`: under Go's case table, `joın` (with U+0131) is
  upper-cased to `JOIN` and dispatched to `NewJoinCommand`, and `paſſ` (with
  U+017F) to `PASS` and `NewPassCommand`;
* `parseCommand_part_encodeLine`: a `PART` written on the wire with its
  channels joined by commas is read back as those channels and its message;
* `parseCommand_eq_panic_iff`: `ParseCommand` panics exactly on a line with no
  argument, on a `JOIN` with more keys than channels, and on a user `MODE`
  whose `NewUserModeCommand` panics; `parseCommand_panics` shows the first
  two;
* `Verb.new_eq_notEnoughArgs_iff`: a constructor fails with
  `NotEnoughArgsError` exactly when its arguments do not fit the verb's shape
  in the spec's table (`Verb.minArgs`, exact for `NICK` and `USER`);
* `parseCommand_eq_error`: its only errors are `NotEnoughArgsError`, and
  `ErrParseCommand` from a user `MODE` with a flag token without a sign.
-/

namespace Irc

open Go

/-- The constructors of `parseCommandFuncs`. -/
inductive Verb
  | join | mode | nick | part | pass | ping | pong | privMsg | quit | topic | user | who | whois
  deriving DecidableEq, Repr

/-- `parseCommandFuncs`: each constructor under the key it is registered
    with. -/
def parseCommandFuncs : List (Bytes × Verb) :=
  [(ascii "JOIN", .join), (ascii "MODE", .mode), (ascii "NICK", .nick), (ascii "PART", .part),
   (ascii "PASS", .pass), (ascii "PING", .ping), (ascii "PONG", .pong),
   (ascii "PRIVMSG", .privMsg), (ascii "QUIT", .quit), (ascii "TOPIC", .topic),
   (ascii "USER", .user), (ascii "WHO", .who), (ascii "WHOIS", .whois)]

/-- `parseCommandFuncs[command]`: the constructor under `command`, `nil` (here
    `none`) for a key that is not in the map. -/
def lookupConstructor (command : Bytes) : Option Verb :=
  (parseCommandFuncs.find? fun e => e.1 = command).map Prod.snd

/-- The function each key is mapped to; `NewModeCommand` calls `IsChannel`. -/
def Verb.new (isChannel : Bytes → Bool) : Verb → List Bytes → Parsed
  | .join => newJoinCommand
  | .mode => newModeCommand isChannel
  | .nick => newNickCommand
  | .part => newPartCommand
  | .pass => newPassCommand
  | .ping => newPingCommand
  | .pong => newPongCommand
  | .privMsg => newPrivMsgCommand
  | .quit => newQuitCommand
  | .topic => newTopicCommand
  | .user => newUserMsgCommand
  | .who => newWhoCommand
  | .whois => newWhoisCommand

/-- `ParseCommand(line)`. -/
def parseCommand (caseRanges : List Unicode.CaseRange) (isChannel : Bytes → Bool)
    (line : Bytes) : Parsed :=
  match parseLine caseRanges line with
  | .error p => .panic p
  | .ok (command, args) =>
    match lookupConstructor command with
    | none => .ok (.unknown command args)
    | some v => v.new isChannel args

/-! ## The registry -/

/-- In a list of pairs with distinct first components, the first pair found
    under a key is the only one. -/
theorem find?_fst_eq_some_iff {α β : Type} [DecidableEq α] {l : List (α × β)}
    (hl : (l.map Prod.fst).Nodup) {a : α} {b : β} :
    (l.find? fun e => e.1 = a).map Prod.snd = some b ↔ (a, b) ∈ l := by
  induction l with
  | nil => simp
  | cons e l ih =>
    obtain ⟨x, y⟩ := e
    simp only [List.map_cons, List.nodup_cons, List.mem_map] at hl
    by_cases hx : x = a
    · subst hx
      have : ∀ b', (x, b') ∉ l := fun b' h => hl.1 ⟨_, h, rfl⟩
      simp [this, eq_comm]
    · simp [hx, ih hl.2, Ne.symm hx]

theorem parseCommandFuncs_nodup : (parseCommandFuncs.map Prod.fst).Nodup := by decide

/-- The registry maps each key to one constructor. -/
theorem lookupConstructor_eq_some_iff (command : Bytes) (v : Verb) :
    lookupConstructor command = some v ↔ (command, v) ∈ parseCommandFuncs :=
  find?_fst_eq_some_iff parseCommandFuncs_nodup

theorem mem_parseCommandFuncs_join (command : Bytes) :
    (command, Verb.join) ∈ parseCommandFuncs ↔ command = ascii "JOIN" := by
  simp [parseCommandFuncs]

theorem mem_parseCommandFuncs_mode (command : Bytes) :
    (command, Verb.mode) ∈ parseCommandFuncs ↔ command = ascii "MODE" := by
  simp [parseCommandFuncs]

/-- `ParseCommand` on a line whose first argument is `w`. -/
theorem parseCommand_cons (caseRanges : List Unicode.CaseRange) (isChannel : Bytes → Bool)
    {line w : Bytes} {args : List Bytes} (h : parseArgs line = w :: args) :
    parseCommand caseRanges isChannel line =
      match lookupConstructor (Strings.toUpper caseRanges w) with
      | none => .ok (.unknown (Strings.toUpper caseRanges w) args)
      | some v => v.new isChannel args := by
  simp only [parseCommand, parseLine, h]

/-! ## Dispatch by `strings.ToUpper` -/

/-- The constructor registered under a key runs exactly when `strings.ToUpper`
    of the first token is that key; any other first token makes an
    `UnknownCommand` of its upper case and the arguments. On an ASCII token,
    `strings.ToUpper` is `a..z` shifted by hand. -/
theorem parseCommand_dispatch (caseRanges : List Unicode.CaseRange) (isChannel : Bytes → Bool)
    {line w : Bytes} {args : List Bytes} (h : parseArgs line = w :: args) :
    (∀ v, (Strings.toUpper caseRanges w, v) ∈ parseCommandFuncs →
        parseCommand caseRanges isChannel line = v.new isChannel args) ∧
      ((∀ v, (Strings.toUpper caseRanges w, v) ∉ parseCommandFuncs) →
        parseCommand caseRanges isChannel line =
          .ok (.unknown (Strings.toUpper caseRanges w) args)) ∧
      ((∀ c ∈ w, c < 0x80) → Strings.toUpper caseRanges w = w.map Strings.upperASCII) := by
  rw [parseCommand_cons caseRanges isChannel h]
  refine ⟨fun v hv => ?_, fun hv => ?_, Strings.toUpper_of_ascii caseRanges⟩
  · rw [(lookupConstructor_eq_some_iff _ v).2 hv]
  · cases hl : lookupConstructor (Strings.toUpper caseRanges w) with
    | none => rfl
    | some v => exact absurd ((lookupConstructor_eq_some_iff _ v).1 hl) (hv v)

theorem parseCommand_dispatch_join :
    parseArgs (ascii "join #a") = [ascii "join", ascii "#a"] ∧
      (∀ v, (Strings.toUpper [] (ascii "join"), v) ∈ parseCommandFuncs →
        parseCommand [] (fun _ => false) (ascii "join #a") = v.new (fun _ => false) [ascii "#a"]) ∧
      ((∀ v, (Strings.toUpper [] (ascii "join"), v) ∉ parseCommandFuncs) →
        parseCommand [] (fun _ => false) (ascii "join #a") =
          .ok (.unknown (Strings.toUpper [] (ascii "join")) [ascii "#a"])) ∧
      ((∀ c ∈ ascii "join", c < 0x80) →
        Strings.toUpper [] (ascii "join") = (ascii "join").map Strings.upperASCII) :=
  have h : parseArgs (ascii "join #a") = [ascii "join", ascii "#a"] :=
    @parseArgs_encodeParams (ascii "join") (by decide) [ascii "#a"] (by decide) none (by simp)
  ⟨h, parseCommand_dispatch [] (fun _ => false) h⟩

/-- `joın #a`, the `i` dotless (U+0131, `C4 B1`): not `JOIN` up to ASCII case,
    yet `strings.ToUpper` makes it `JOIN` under Go's case table, and
    `NewJoinCommand` runs. So does `paſſ x`, with the long `s` (U+017F,
    `C5 BF`) that upper-cases to `S`, for `NewPassCommand`. -/
theorem parseCommand_dotless_i :
    [0x6A, 0x6F, 0xC4, 0xB1, 0x6E].map Strings.upperASCII ≠ ascii "JOIN" ∧
      parseCommand Unicode.latinCaseRanges (fun _ => false)
          [0x6A, 0x6F, 0xC4, 0xB1, 0x6E, 0x20, 0x23, 0x61] =
        Verb.join.new (fun _ => false) [ascii "#a"] ∧
      [0x70, 0x61, 0xC5, 0xBF, 0xC5, 0xBF].map Strings.upperASCII ≠ ascii "PASS" ∧
      parseCommand Unicode.latinCaseRanges (fun _ => false)
          [0x70, 0x61, 0xC5, 0xBF, 0xC5, 0xBF, 0x20, 0x78] =
        Verb.pass.new (fun _ => false) [ascii "x"] := by
  refine ⟨by decide, ?_, by decide, ?_⟩
  · -- `joın #a`
    have hargs : parseArgs [0x6A, 0x6F, 0xC4, 0xB1, 0x6E, 0x20, 0x23, 0x61] =
        [[0x6A, 0x6F, 0xC4, 0xB1, 0x6E], ascii "#a"] :=
      @parseArgs_encodeParams [0x6A, 0x6F, 0xC4, 0xB1, 0x6E] (by decide) [ascii "#a"] (by decide) none
        (by simp)
    have hrunes : Utf8.toRunes [0x6F, 0xC4, 0xB1, 0x6E] = [0x6F, 0x131, 0x6E] := by
      rw [Utf8.toRunes_ascii (by decide), Utf8.toRunes_of_decode (List.cons_ne_nil _ _)
        (by decide : Utf8.decodeRuneInString [0xC4, 0xB1, 0x6E] = (0x131, 2))]
      simp [Utf8.toRunes_ascii]
    have hupper : Strings.toUpper Unicode.latinCaseRanges [0x6A, 0x6F, 0xC4, 0xB1, 0x6E] =
        ascii "JOIN" := by
      rw [Strings.toUpper, if_neg (by decide), Strings.map]
      simp only [(by decide : Utf8.decodeRuneInString [0x6A, 0x6F, 0xC4, 0xB1, 0x6E] = (0x6A, 1))]
      rw [if_neg (by decide), Strings.mapRest, List.drop_one, List.tail_cons, hrunes]
      decide
    rw [parseCommand_cons _ _ hargs, hupper]
    rfl
  · -- `paſſ x`
    have hargs : parseArgs [0x70, 0x61, 0xC5, 0xBF, 0xC5, 0xBF, 0x20, 0x78] =
        [[0x70, 0x61, 0xC5, 0xBF, 0xC5, 0xBF], ascii "x"] :=
      @parseArgs_encodeParams [0x70, 0x61, 0xC5, 0xBF, 0xC5, 0xBF] (by decide) [ascii "x"] (by decide) none
        (by simp)
    have hs : Utf8.toRunes [0xC5, 0xBF] = [0x17F] := by
      rw [Utf8.toRunes_of_decode (List.cons_ne_nil _ _)
        (by decide : Utf8.decodeRuneInString [0xC5, 0xBF] = (0x17F, 2))]
      simp
    have hrunes : Utf8.toRunes [0x61, 0xC5, 0xBF, 0xC5, 0xBF] = [0x61, 0x17F, 0x17F] := by
      rw [Utf8.toRunes_ascii (by decide), Utf8.toRunes_of_decode (List.cons_ne_nil _ _)
        (by decide : Utf8.decodeRuneInString [0xC5, 0xBF, 0xC5, 0xBF] = (0x17F, 2))]
      simp [hs]
    have hupper : Strings.toUpper Unicode.latinCaseRanges [0x70, 0x61, 0xC5, 0xBF, 0xC5, 0xBF] =
        ascii "PASS" := by
      rw [Strings.toUpper, if_neg (by decide), Strings.map]
      simp only [(by decide : Utf8.decodeRuneInString [0x70, 0x61, 0xC5, 0xBF, 0xC5, 0xBF] = (0x70, 1))]
      rw [if_neg (by decide), Strings.mapRest, List.drop_one, List.tail_cons, hrunes]
      decide
    rw [parseCommand_cons _ _ hargs, hupper]
    rfl

/-! ## A comma list on the wire -/

/-- A `PART` written on the wire, its channels joined by commas into one middle
    parameter and its message, if any, as the trailing one, is read back as
    those channels, in order, and that message: the tokenizer, the dispatch by
    `strings.ToUpper` and `strings.Split` lose and add nothing. The verb is any
    token that `strings.ToUpper` makes `PART`. -/
theorem parseCommand_part_encodeLine (caseRanges : List Unicode.CaseRange) (isChannel : Bytes → Bool)
    {verb : Bytes} (hv : Middle verb) (hup : Strings.toUpper caseRanges verb = ascii "PART")
    {channels : List Bytes} (hc : channels ≠ [] ∧ ∀ c ∈ channels, 0x2C ∉ c)
    (hm : Middle (Strings.join channels [0x2C])) {message : Option Bytes} (ht : ∀ t ∈ message, t ≠ []) :
    parseCommand caseRanges isChannel (encodeLine verb [Strings.join channels [0x2C]] message) =
      .ok (.part channels (message.getD [])) := by
  have hargs := parseArgs_encodeParams hv (fun m hm' => (List.mem_singleton.1 hm') ▸ hm) ht
  rw [encodeLine, parseCommand_cons caseRanges isChannel hargs, hup,
    (by decide : lookupConstructor (ascii "PART") = some .part)]
  cases message <;> simp [Verb.new, newPartCommand, newWithOptional, Strings.split_join hc.1 hc.2]

theorem parseCommand_part_two_channels :
    Middle (ascii "part") ∧ Strings.toUpper [] (ascii "part") = ascii "PART" ∧
      ([ascii "#a", ascii "#b"] ≠ [] ∧ ∀ c ∈ [ascii "#a", ascii "#b"], 0x2C ∉ c) ∧
      Middle (Strings.join [ascii "#a", ascii "#b"] [0x2C]) ∧ (∀ t ∈ some (ascii "bye"), t ≠ []) ∧
      parseCommand [] (fun _ => false)
          (encodeLine (ascii "part") [Strings.join [ascii "#a", ascii "#b"] [0x2C]] (some (ascii "bye"))) =
        .ok (.part [ascii "#a", ascii "#b"] (ascii "bye")) :=
  have hv : Middle (ascii "part") := by decide
  have hup : Strings.toUpper [] (ascii "part") = ascii "PART" := by
    rw [Strings.toUpper_of_ascii [] (by decide)]
    decide
  have hc : [ascii "#a", ascii "#b"] ≠ [] ∧ ∀ c ∈ [ascii "#a", ascii "#b"], 0x2C ∉ c := by decide
  have hm : Middle (Strings.join [ascii "#a", ascii "#b"] [0x2C]) := by decide
  have ht : ∀ t ∈ some (ascii "bye"), t ≠ [] := by rintro t ⟨⟩; decide
  ⟨hv, hup, hc, hm, ht, parseCommand_part_encodeLine [] _ hv hup hc hm ht⟩

/-! ## Panics and errors -/

/-- The constructors but `NewJoinCommand` and `NewModeCommand` only count their
    arguments: they return a command or `NotEnoughArgsError`. -/
theorem Verb.new_of_counting (isChannel : Bytes → Bool) {v : Verb} (hj : v ≠ .join)
    (hm : v ≠ .mode) (args : List Bytes) :
    (∃ cmd, v.new isChannel args = .ok cmd) ∨ v.new isChannel args = .error .notEnoughArgs := by
  -- each constructor is one `match` on the shape of `args`
  cases v <;> simp only [Verb.new, newPingCommand, newPongCommand, newTopicCommand, newPartCommand,
    newWithOptional, newPassCommand, newNickCommand, newUserMsgCommand, newQuitCommand,
    newPrivMsgCommand, newWhoisCommand, newWhoCommand, ne_eq, not_true_eq_false] at hj hm ⊢ <;>
    (try split) <;> simp

/-- Only `NewJoinCommand` and `NewModeCommand` panic. -/
theorem Verb.new_eq_panic_iff (isChannel : Bytes → Bool) (v : Verb) (args : List Bytes)
    (p : Panic) :
    v.new isChannel args = .panic p ↔
      (v = .join ∧ newJoinCommand args = .panic p) ∨
        (v = .mode ∧ newModeCommand isChannel args = .panic p) := by
  by_cases hj : v = .join
  · subst hj; simp [Verb.new]
  by_cases hm : v = .mode
  · subst hm; simp [Verb.new]
  simp only [hj, hm, false_and, or_self, iff_false]
  rcases Verb.new_of_counting isChannel hj hm args with ⟨cmd, h⟩ | h <;> simp [h]

/-- `ParseCommand` panics exactly on a line with no argument, on a `JOIN`
    with more keys than channels, and on a `MODE` of a user whose
    `NewUserModeCommand` panics. -/
theorem parseCommand_eq_panic_iff (caseRanges : List Unicode.CaseRange)
    (isChannel : Bytes → Bool) (line : Bytes) (p : Panic) :
    parseCommand caseRanges isChannel line = .panic p ↔
      (p = .indexOutOfRange ∧ (line = [] ∨ line = [0x3A] ∨ line.head? = some 0x20)) ∨
        ∃ w args, parseArgs line = w :: args ∧
          ((Strings.toUpper caseRanges w = ascii "JOIN" ∧ p = .indexOutOfRange ∧
              ∃ arg rest, args = arg :: rest ∧ arg ≠ ascii "0" ∧
                (Strings.split arg 0x2C).length < (keyArgs rest).length) ∨
            (Strings.toUpper caseRanges w = ascii "MODE" ∧
              ∃ target, args.head? = some target ∧ isChannel target = false ∧
                newUserModeCommand args = .panic p)) := by
  rw [← parseLine_eq_error_iff caseRanges]
  rcases hargs : parseArgs line with _ | ⟨w, args⟩
  · have hpl : parseLine caseRanges line = .error .indexOutOfRange := by simp [parseLine, hargs]
    simp only [parseCommand, hpl, Parsed.panic.injEq, Except.error.injEq, reduceCtorEq, false_and,
      exists_false, or_false]
  have hpl : parseLine caseRanges line = .ok (Strings.toUpper caseRanges w, args) := by
    simp [parseLine, hargs]
  simp only [hpl, reduceCtorEq, false_and, false_or, ← newJoinCommand_eq_panic_iff,
    ← newModeCommand_eq_panic_iff]
  rw [parseCommand_cons caseRanges isChannel hargs]
  constructor
  · intro h
    refine ⟨w, args, rfl, ?_⟩
    cases hl : lookupConstructor (Strings.toUpper caseRanges w) with
    | none => simp [hl] at h
    | some v =>
      simp only [hl, Verb.new_eq_panic_iff] at h
      have hv := (lookupConstructor_eq_some_iff _ v).1 hl
      rcases h with ⟨rfl, h⟩ | ⟨rfl, h⟩
      · exact .inl ⟨(mem_parseCommandFuncs_join _).1 hv, h⟩
      · exact .inr ⟨(mem_parseCommandFuncs_mode _).1 hv, h⟩
  · rintro ⟨w', args', he, ⟨hw, h⟩ | ⟨hw, h⟩⟩ <;> cases he
    · rw [hw, (by decide : lookupConstructor (ascii "JOIN") = some .join)]
      exact h
    · rw [hw, (by decide : lookupConstructor (ascii "MODE") = some .mode)]
      exact h

/-- The empty line, and `JOIN #a k1,k2`: one channel and two keys. -/
theorem parseCommand_panics (caseRanges : List Unicode.CaseRange) (isChannel : Bytes → Bool) :
    parseCommand caseRanges isChannel [] = .panic .indexOutOfRange ∧
      parseCommand caseRanges isChannel (ascii "JOIN #a k1,k2") = .panic .indexOutOfRange := by
  refine ⟨by simp [parseCommand, parseLine], ?_⟩
  have hargs : parseArgs (ascii "JOIN #a k1,k2") = [ascii "JOIN", ascii "#a", ascii "k1,k2"] :=
    @parseArgs_encodeParams (ascii "JOIN") (by decide) [ascii "#a", ascii "k1,k2"] (by decide) none
      (by simp)
  rw [parseCommand_cons caseRanges isChannel hargs, Strings.toUpper_of_ascii caseRanges (by decide),
    (by decide : (ascii "JOIN").map Strings.upperASCII = ascii "JOIN"),
    (by decide : lookupConstructor (ascii "JOIN") = some .join)]
  show newJoinCommand [ascii "#a", ascii "k1,k2"] = .panic .indexOutOfRange
  decide

/-- A constructor fails with `NotEnoughArgsError`, or with `ErrParseCommand`
    from `NewUserModeCommand`, for a flag token without a sign. -/
theorem Verb.new_eq_error {isChannel : Bytes → Bool} {v : Verb} {args : List Bytes}
    {e : ParseError} (h : v.new isChannel args = .error e) :
    e = .notEnoughArgs ∨
      (v = .mode ∧ e = .parseCommand ∧ ∃ nickname flags, args = nickname :: flags ∧
        isChannel nickname = false ∧ ∃ t ∈ flags, ¬ Signed t) := by
  by_cases hj : v = .join
  · subst hj
    exact .inl (newJoinCommand_eq_error h).2
  by_cases hm : v = .mode
  · subst hm
    rcases args with _ | ⟨nickname, flags⟩
    · simp only [Verb.new, newModeCommand, Parsed.error.injEq] at h
      exact .inl h.symm
    cases hc : isChannel nickname
    · simp only [Verb.new, newModeCommand, hc] at h
      obtain ⟨he, t, ht, hs⟩ := newUserModeCommand_error h
      exact .inr ⟨rfl, he, nickname, flags, rfl, hc, t, ht, hs⟩
    · simp [Verb.new, newModeCommand, hc, newChannelModeCommand] at h
  rcases Verb.new_of_counting isChannel hj hm args with ⟨cmd, h'⟩ | h' <;> rw [h'] at h <;> cases h
  exact .inl rfl

/-- The shapes of the spec's verb table: the number of arguments a verb needs,
    `PRIVMSG(target,message)` two, `USER(user,mode,unused,realname)` four,
    `QUIT([message])` and `WHO([mask[,"o"]])` none, and every other verb one. -/
def Verb.minArgs : Verb → Nat
  | .privMsg => 2
  | .user => 4
  | .quit | .who => 0
  | _ => 1

/-- The verbs the spec's table marks `[exact]`: `NICK` and `USER`. -/
def Verb.exactArgs : Verb → Bool
  | .nick | .user => true
  | _ => false

/-- Every constructor fails with `NotEnoughArgsError` exactly when its
    arguments do not fit the spec's shape for the verb. -/
theorem Verb.new_eq_notEnoughArgs_iff (isChannel : Bytes → Bool) (v : Verb) (args : List Bytes) :
    v.new isChannel args = .error .notEnoughArgs ↔
      args.length < v.minArgs ∨ (v.exactArgs ∧ args.length ≠ v.minArgs) := by
  cases v with
  | join =>
    refine ⟨fun h => by simp [(newJoinCommand_eq_error h).1, Verb.minArgs], fun h => ?_⟩
    rcases args with _ | ⟨a, rest⟩
    · rfl
    · simp [Verb.minArgs, Verb.exactArgs] at h
  | mode =>
    rcases args with _ | ⟨target, flags⟩
    · simp [Verb.new, newModeCommand, Verb.minArgs]
    · simp only [Verb.new, newModeCommand, Verb.minArgs, Verb.exactArgs, List.length_cons]
      cases isChannel target
      · simp only [Bool.false_eq_true, if_false]
        exact ⟨fun h => absurd (newUserModeCommand_error h).1 nofun, by simp⟩
      · simp [newChannelModeCommand]
  | user =>
    rcases args with _ | ⟨a, _ | ⟨b, _ | ⟨c, _ | ⟨d, _ | ⟨e, rest⟩⟩⟩⟩⟩ <;>
      simp [Verb.new, Verb.minArgs, Verb.exactArgs, newUserMsgCommand]
  | _ =>
    rcases args with _ | ⟨a, _ | ⟨b, rest⟩⟩ <;>
      simp [Verb.new, Verb.minArgs, Verb.exactArgs, newNickCommand, newPartCommand,
        newPassCommand, newPingCommand, newPongCommand, newPrivMsgCommand, newQuitCommand,
        newTopicCommand, newWhoCommand, newWhoisCommand, newWithOptional]

/-- `NICK a b` has one argument more than `NICK(nickname)` takes. -/
example : Verb.nick.new (fun _ => false) [ascii "a", ascii "b"] = .error .notEnoughArgs := rfl

/-- `ParseCommand` fails only with `NotEnoughArgsError`, or with
    `ErrParseCommand` on a `MODE` of a user with a flag token without a
    sign. -/
theorem parseCommand_eq_error {caseRanges : List Unicode.CaseRange} {isChannel : Bytes → Bool}
    {line : Bytes} {e : ParseError} (h : parseCommand caseRanges isChannel line = .error e) :
    e = .notEnoughArgs ∨
      (e = .parseCommand ∧ ∃ w nickname flags, parseArgs line = w :: nickname :: flags ∧
        Strings.toUpper caseRanges w = ascii "MODE" ∧ isChannel nickname = false ∧
        ∃ t ∈ flags, ¬ Signed t) := by
  rcases hargs : parseArgs line with _ | ⟨w, args⟩
  · simp [parseCommand, parseLine, hargs] at h
  rw [parseCommand_cons caseRanges isChannel hargs] at h
  cases hl : lookupConstructor (Strings.toUpper caseRanges w) with
  | none => simp [hl] at h
  | some v =>
    simp only [hl] at h
    rcases Verb.new_eq_error h with he | ⟨rfl, he, nickname, flags, rfl, hc, ht⟩
    · exact .inl he
    · exact .inr ⟨he, w, nickname, flags, rfl,
        (mem_parseCommandFuncs_mode _).1 ((lookupConstructor_eq_some_iff _ _).1 hl), hc, ht⟩

theorem parseCommand_mode_xo :
    parseCommand [] (fun _ => false) (ascii "MODE nick xo") = .error .parseCommand ∧
      (ParseError.parseCommand = .notEnoughArgs ∨
        (ParseError.parseCommand = .parseCommand ∧ ∃ w nickname flags,
          parseArgs (ascii "MODE nick xo") = w :: nickname :: flags ∧
          Strings.toUpper [] w = ascii "MODE" ∧ (fun _ => false) nickname = false ∧
          ∃ t ∈ flags, ¬ Signed t)) := by
  have hargs : parseArgs (ascii "MODE nick xo") = [ascii "MODE", ascii "nick", ascii "xo"] :=
    @parseArgs_encodeParams (ascii "MODE") (by decide) [ascii "nick", ascii "xo"] (by decide) none
      (by simp)
  have hxo : Utf8.toRunes (ascii "xo") = [0x78, 0x6F] := Utf8.toRunes_of_ascii (by decide)
  have h : parseCommand [] (fun _ => false) (ascii "MODE nick xo") = .error .parseCommand := by
    rw [parseCommand_cons [] _ hargs, Strings.toUpper_of_ascii [] (by decide),
      (by decide : (ascii "MODE").map Strings.upperASCII = ascii "MODE"),
      (by decide : lookupConstructor (ascii "MODE") = some .mode)]
    simp [Verb.new, newModeCommand, newUserModeCommand, Strings.join_nil,
      Utf8.runeCountInString_eq_length, hxo, userModeLoop, userModeToken]
  exact ⟨h, parseCommand_eq_error h⟩

end Irc
