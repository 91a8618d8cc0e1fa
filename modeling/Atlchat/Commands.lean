import Atlchat.Go.Strings
import Atlchat.Go.Strconv
import Mathlib.Data.List.AList

/-!
# Commands

The values `commands.go` parses a line into. A constructor takes the
arguments of its verb and returns a `Command` or one of the two errors of the
file, `NotEnoughArgsError` and `ErrParseCommand` (`ParseError`); or it panics,
when the Go code indexes a slice out of range or asks `make` for a negative
length (`Panic`). The three outcomes together are a `Parsed`.

This module holds the constructors whose only check is the number of their
arguments. `JOIN` and `MODE`, which do more, have modules of their own
(`Atlchat.Join`, `Atlchat.UserMode`).

* `newWithOptional`: the shape of `PING`, `PONG`, `TOPIC` and `PART`, one
  argument required and a second one optional;
* `newUserMsgCommand_eq_parseUintDecimal`: the mode of `USER` is the one the
  `uint64` loop of `strconv.ParseUint` computes, or zero when it fails.

What these constructors can return, together with the others, is in
`Atlchat.Dispatch` (`Verb.new_of_counting`).

The `BaseCommand` every command embeds, the client it is bound to later by
`SetBase`, is not part of what a constructor computes, and is left out.
-/

namespace Irc

open Go

/-- The errors of `commands.go`. -/
inductive ParseError
  /-- `NotEnoughArgsError`. -/
  | notEnoughArgs
  /-- `ErrParseCommand`. -/
  | parseCommand
  deriving DecidableEq, Repr

/-- The text of each error, as `errors.New` gives it. -/
def ParseError.text : ParseError → String
  | .notEnoughArgs => "not enough arguments"
  | .parseCommand => "failed to parse message"

/-- A Go run-time panic, by the operation that raises it. -/
inductive Panic
  /-- `a[i]` with `i` out of the range of `a`. -/
  | indexOutOfRange
  /-- `make([]T, n)` with `n < 0`. -/
  | makeSliceLen
  deriving DecidableEq, Repr

/-- `a[i] = x` on a slice, or the panic when `i` is out of range. -/
def setIndex {α : Type} (a : List α) (i : Nat) (x : α) : Except Panic (List α) :=
  if i < a.length then .ok (a.set i x) else .error .indexOutOfRange

/-- `for _, x := range xs { a[i] = x; i++ }`: the slice with `xs` written from
    index `i` on, and the index past them; or the panic of the first index out
    of the slice. -/
def setFrom {α : Type} (a : List α) (i : Nat) : List α → Except Panic (List α × Nat)
  | [] => .ok (a, i)
  | x :: xs => do setFrom (← setIndex a i x) (i + 1) xs

/-- Writing into the zero entries past `pre`: the values fit and the rest stays
    zero, or the first one past the slice panics. -/
theorem setFrom_replicate {α : Type} (pre xs : List α) (z : α) (n : Nat) :
    setFrom (pre ++ List.replicate n z) pre.length xs =
      if xs.length ≤ n then .ok (pre ++ xs ++ List.replicate (n - xs.length) z, pre.length + xs.length)
      else .error .indexOutOfRange := by
  induction xs generalizing pre n with
  | nil => simp [setFrom]
  | cons x xs ih =>
    rcases n with _ | n
    · simp [setFrom, setIndex, bind, Except.bind]
    · have hset : (pre ++ List.replicate (n + 1) z).set pre.length x =
          pre ++ x :: List.replicate n z := by
        simp [List.replicate_succ]
      have := ih (pre ++ [x]) n
      simp only [List.append_assoc, List.singleton_append, List.length_append,
        List.length_singleton] at this
      simp [setFrom, setIndex, bind, Except.bind, hset, this, Nat.add_right_comm _ 1,
        Nat.add_assoc]

/-- A `ModeChange`: the mode (a `Mode`, that is, a rune) and whether it is
    added (`false`: removed). -/
structure ModeChange where
  mode : Rune
  add : Bool
  deriving DecidableEq, Repr

/-- The channels of a `JoinCommand`, a Go `map[string]string`: every channel
    name with its key. -/
abbrev ChannelKeys := AList fun _ : Bytes => Bytes

/-- The commands, one constructor for each type of `commands.go`, with the
    fields it sets. -/
inductive Command
  /-- `UnknownCommand`: a verb no constructor is registered for. -/
  | unknown (command : Bytes) (args : List Bytes)
  | ping (server server2 : Bytes)
  | pong (server1 server2 : Bytes)
  | pass (password : Bytes)
  | nick (nickname : Bytes)
  /-- `UserMsgCommand`. -/
  | user (user : Bytes) (mode : UInt8) (unused realname : Bytes)
  | quit (message : Bytes)
  | join (channels : ChannelKeys) (zero : Bool)
  | part (channels : List Bytes) (message : Bytes)
  | privMsg (target message : Bytes)
  | topic (channel topic : Bytes)
  /-- `ModeCommand`, the user modes of `nickname`. -/
  | mode (nickname : Bytes) (changes : List ModeChange)
  | channelMode (channel : Bytes)
  | whois (target : Bytes) (masks : List Bytes)
  | who (mask : Bytes) (operatorOnly : Bool)
  deriving DecidableEq

/-- What a constructor comes to: a command, an error, or a panic. -/
inductive Parsed
  | ok (cmd : Command)
  | error (e : ParseError)
  | panic (p : Panic)
  deriving DecidableEq

/-! ## Constructors that only count their arguments -/

/-- The shape of `NewPingCommand`, `NewPongCommand`, `NewTopicCommand` and
    `NewPartCommand`: `len(args) < 1` fails; otherwise `args[0]` is the first
    field and `args[1]`, if there is one, the second. -/
def newWithOptional (mk : Bytes → Bytes → Command) : List Bytes → Parsed
  | [] => .error .notEnoughArgs
  | arg :: rest => .ok (mk arg (rest.headD []))

/-- `NewPingCommand`: `PING <server1> [ <server2> ]`. -/
def newPingCommand : List Bytes → Parsed := newWithOptional .ping

/-- `NewPongCommand`: `PONG <server> [ <server2> ]`. -/
def newPongCommand : List Bytes → Parsed := newWithOptional .pong

/-- `NewTopicCommand`: `TOPIC <channel> [ <topic> ]`. -/
def newTopicCommand : List Bytes → Parsed := newWithOptional .topic

/-- `NewPartCommand`: `PART <channel> *( "," <channel> ) [ <message> ]`, the
    channels `strings.Split(args[0], ",")`. -/
def newPartCommand : List Bytes → Parsed :=
  newWithOptional fun channels message => .part (Strings.split channels 0x2C) message

/-- `NewPassCommand`: `PASS <password>`. -/
def newPassCommand : List Bytes → Parsed
  | [] => .error .notEnoughArgs
  | password :: _ => .ok (.pass password)

/-- `NewNickCommand`: `NICK <nickname>`, exactly one argument. -/
def newNickCommand : List Bytes → Parsed
  | [nickname] => .ok (.nick nickname)
  | _ => .error .notEnoughArgs

/-- `NewUserMsgCommand`: `USER <user> <mode> <unused> <realname>`, exactly four
    arguments. The mode is `strconv.ParseUint(args[1], 10, 8)`, left at zero
    when that fails. -/
def newUserMsgCommand : List Bytes → Parsed
  | [user, mode, unused, realname] =>
    .ok (.user user ((Strconv.parseUint mode 8).getD 0).toUInt8 unused realname)
  | _ => .error .notEnoughArgs

/-- The mode `NewUserMsgCommand` records is the one Go computes with the
    `uint64` loop of `ParseUint`: the value read, as `uint8(mode)`, when
    `err == nil`, and the zero of the field otherwise. The loop's guards let
    through exactly the strings `parseUint` reads: non-empty decimal numerals
    below 256, with their value. -/
theorem newUserMsgCommand_eq_parseUintDecimal (user mode unused realname : Bytes) :
    newUserMsgCommand [user, mode, unused, realname] =
        (match Strconv.parseUintDecimal mode 8 with
        | (m, none) => .ok (.user user m.toUInt8 unused realname)
        | (_, some _) => .ok (.user user 0 unused realname)) ∧
      ∀ m : UInt64, Strconv.parseUintDecimal mode 8 = (m, none) ↔ Strconv.parseUint mode 8 = some m.toNat := by
  have hok := Strconv.parseUintDecimal_eq_ok_iff mode (show 0 < 8 ∧ 8 ≤ 64 by decide)
  refine ⟨?_, hok⟩
  rcases h : Strconv.parseUintDecimal mode 8 with ⟨m, _ | e⟩
  · rw [newUserMsgCommand, (hok m).1 h]
    rfl
  · -- a value `parseUint` accepts would be read without error
    have hnone : Strconv.parseUint mode 8 = none := by
      cases hp : Strconv.parseUint mode 8 with
      | none => rfl
      | some k =>
        have hk : k < 1 <<< 8 := Strconv.parseUint_lt hp
        have hk' := (hok k.toUInt64).2 (by rw [hp, Strconv.toNat_toUInt64 (by unfold UInt64.size; omega)])
        rw [h] at hk'
        cases hk'
    rw [newUserMsgCommand, hnone]
    rfl

/-- `NewQuitCommand`: `QUIT [ <message> ]`. -/
def newQuitCommand (args : List Bytes) : Parsed :=
  .ok (.quit (args.headD []))

/-- `NewPrivMsgCommand`: `PRIVMSG <target> <message>`. -/
def newPrivMsgCommand : List Bytes → Parsed
  | target :: message :: _ => .ok (.privMsg target message)
  | _ => .error .notEnoughArgs

/-- `NewWhoisCommand`: `WHOIS [ <target> ] <mask> *( "," <mask> )`; with one
    argument it is the mask list and the target is empty. -/
def newWhoisCommand : List Bytes → Parsed
  | [] => .error .notEnoughArgs
  | [masks] => .ok (.whois [] (Strings.split masks 0x2C))
  | target :: masks :: _ => .ok (.whois target (Strings.split masks 0x2C))

/-- `NewWhoCommand`: `WHO [ <mask> [ "o" ] ]`, `operatorOnly` when the second
    argument is `"o"`. -/
def newWhoCommand (args : List Bytes) : Parsed :=
  .ok (.who (args.headD []) (args[1]? = some (ascii "o")))

/-- `PartCommand.Message()`: the message, or, when it is empty, the nickname
    of the command's source, looked up only then. -/
def partMessage (message sourceNick : Bytes) : Bytes :=
  if message = [] then sourceNick else message

end Irc
