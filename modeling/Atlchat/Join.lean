import Atlchat.Commands

/-!
# Joining channels

`NewJoinCommand` reads `JOIN ( <channel> *( "," <channel> ) [ <key> *( "," <key> ) ] ) / "0"`.
It splits the channels at the commas, makes a slice of as many empty keys,
writes the split keys into it from index `0` on, and maps every channel to the
key at its own index, a later channel of the same name overwriting an earlier
one.

* `newJoinCommand_eq_panic_iff`: the keys loop writes past the slice, and
  `NewJoinCommand` panics, exactly when it is given more keys than channels; `newJoinCommand_excess_key` is the
  smallest such line;
* `newJoinCommand_keys`: otherwise it maps exactly the channels given, each to
  the key at the index of its last occurrence, or to `""` past the keys.
-/

namespace Irc

open Go

/-- The keys `NewJoinCommand` ranges over: `strings.Split(args[1], ",")` when
    there is an `args[1]`, none otherwise. -/
def keyArgs : List Bytes → List Bytes
  | [] => []
  | keys :: _ => Strings.split keys 0x2C

/-- `for i, channel := range channels { msg.channels[channel] = keys[i] }`, with
    `keys` as long as `channels`. -/
def putChannels (m : ChannelKeys) : List Bytes → List Bytes → ChannelKeys
  | channel :: channels, key :: keys => putChannels (m.insert channel key) channels keys
  | _, _ => m

/-- `NewJoinCommand(args)`: `"0"` leaves every channel; otherwise the channels
    of `args[0]`, with the keys of `args[1]` by position. -/
def newJoinCommand : List Bytes → Parsed
  | [] => .error .notEnoughArgs
  | arg :: rest =>
    if arg = ascii "0" then .ok (.join ∅ true)
    else
      let channels := Strings.split arg 0x2C
      -- `for i, key := range ... { keys[i] = key }`
      match setFrom (List.replicate channels.length []) 0 (keyArgs rest) with
      | .error p => .panic p
      | .ok (keys, _) => .ok (.join (putChannels ∅ channels keys) false)

/-! ## The map of channels -/

theorem mem_putChannels {m : ChannelKeys} {channels keys : List Bytes}
    (h : channels.length ≤ keys.length) (c : Bytes) :
    c ∈ putChannels m channels keys ↔ c ∈ m ∨ c ∈ channels := by
  induction channels generalizing m keys with
  | nil => rcases keys with _ | _ <;> simp [putChannels]
  | cons channel channels ih =>
    rcases keys with _ | ⟨key, keys⟩
    · simp at h
    · simp only [putChannels, ih (Nat.le_of_succ_le_succ h), AList.mem_insert, List.mem_cons,
        or_assoc, or_left_comm]

/-- A channel the loop does not reach keeps its entry. -/
theorem lookup_putChannels_of_not_mem {m : ChannelKeys} {channels keys : List Bytes} {c : Bytes}
    (hc : c ∉ channels) : (putChannels m channels keys).lookup c = m.lookup c := by
  induction channels generalizing m keys with
  | nil => rcases keys with _ | _ <;> rfl
  | cons channel channels ih =>
    rcases keys with _ | ⟨key, keys⟩
    · rfl
    · simp only [List.mem_cons, not_or] at hc
      simp only [putChannels, ih hc.2, AList.lookup_insert_ne hc.1]

/-- A channel maps to the key at the index of its last occurrence. -/
theorem lookup_putChannels {m : ChannelKeys} {channels keys : List Bytes}
    (h : channels.length ≤ keys.length) {i : Nat} (hi : i < channels.length)
    (hlast : channels[i] ∉ channels.drop (i + 1)) :
    (putChannels m channels keys).lookup channels[i] = keys[i]? := by
  induction channels generalizing m keys i with
  | nil => simp at hi
  | cons channel channels ih =>
    rcases keys with _ | ⟨key, keys⟩
    · simp at h
    rcases i with _ | i
    · simp only [List.getElem_cons_zero, List.drop_succ_cons, List.drop_zero] at hlast ⊢
      simp [putChannels, lookup_putChannels_of_not_mem hlast]
    · simp only [List.getElem_cons_succ, List.drop_succ_cons] at hlast ⊢
      simp only [putChannels, List.getElem?_cons_succ]
      exact ih (Nat.le_of_succ_le_succ h) _ hlast

/-! ## `NewJoinCommand` -/

/-- `NewJoinCommand` panics exactly when it is given more keys than channels:
    the keys loop then writes past the slice. -/
theorem newJoinCommand_eq_panic_iff (args : List Bytes) (p : Panic) :
    newJoinCommand args = .panic p ↔
      p = .indexOutOfRange ∧ ∃ arg rest, args = arg :: rest ∧ arg ≠ ascii "0" ∧
        (Strings.split arg 0x2C).length < (keyArgs rest).length := by
  rcases args with _ | ⟨arg, rest⟩
  · simp [newJoinCommand]
  by_cases h0 : arg = ascii "0"
  · simp [newJoinCommand, h0]
  have := setFrom_replicate [] (keyArgs rest) [] (Strings.split arg 0x2C).length
  simp only [List.nil_append, List.length_nil] at this
  by_cases hk : (keyArgs rest).length ≤ (Strings.split arg 0x2C).length
  · simp [newJoinCommand, h0, this, hk]
  · simp only [newJoinCommand, h0, if_false, this, if_neg hk, Parsed.panic.injEq, List.cons.injEq]
    exact ⟨fun h => ⟨h.symm, arg, rest, ⟨rfl, rfl⟩, h0, by omega⟩, fun h => h.1.symm⟩

/-- `NewJoinCommand` fails only on no argument. -/
theorem newJoinCommand_eq_error {args : List Bytes} {e : ParseError}
    (h : newJoinCommand args = .error e) : args = [] ∧ e = .notEnoughArgs := by
  rcases args with _ | ⟨arg, rest⟩
  · simpa [newJoinCommand, eq_comm] using h
  · simp only [newJoinCommand] at h
    split_ifs at h
    split at h <;> cases h

/-- No more keys than channels: every channel given is mapped, and no other,
    each to the key at the index of its last occurrence, `""` past the keys. -/
theorem newJoinCommand_keys {arg : Bytes} {rest : List Bytes} (h0 : arg ≠ ascii "0")
    (hk : (keyArgs rest).length ≤ (Strings.split arg 0x2C).length) :
    ∃ m, newJoinCommand (arg :: rest) = .ok (.join m false) ∧
      (∀ c, c ∈ m ↔ c ∈ Strings.split arg 0x2C) ∧
      ∀ i (hi : i < (Strings.split arg 0x2C).length),
        (Strings.split arg 0x2C)[i] ∉ (Strings.split arg 0x2C).drop (i + 1) →
        m.lookup (Strings.split arg 0x2C)[i] = some ((keyArgs rest).getD i []) := by
  set channels := Strings.split arg 0x2C
  set keys := keyArgs rest ++ List.replicate (channels.length - (keyArgs rest).length) []
  have hlen : channels.length ≤ keys.length := by simp [keys]; omega
  have hfill := setFrom_replicate [] (keyArgs rest) [] channels.length
  simp only [List.nil_append, List.length_nil, if_pos hk] at hfill
  refine ⟨putChannels ∅ channels keys, by simp [newJoinCommand, h0, channels, hfill, keys],
    fun c => by simp [mem_putChannels hlen], fun i hi hlast => ?_⟩
  rw [lookup_putChannels hlen hi hlast]
  by_cases hik : i < (keyArgs rest).length
  · simp [keys, List.getElem?_append_left hik, List.getElem?_eq_getElem hik]
  · have hnone : (keyArgs rest)[i]? = none := List.getElem?_eq_none (Nat.not_lt.1 hik)
    have hrep : i - (keyArgs rest).length < channels.length - (keyArgs rest).length := by omega
    simp [keys, List.getElem?_append_right (Nat.not_lt.1 hik), List.getElem?_replicate, hrep, hnone]

theorem newJoinCommand_fewer_keys :
    ascii "#a,#b" ≠ ascii "0" ∧
      (keyArgs [ascii "k1"]).length ≤ (Strings.split (ascii "#a,#b") 0x2C).length ∧
      ∃ m, newJoinCommand [ascii "#a,#b", ascii "k1"] = .ok (.join m false) ∧
        (∀ c, c ∈ m ↔ c ∈ Strings.split (ascii "#a,#b") 0x2C) ∧
        ∀ i (hi : i < (Strings.split (ascii "#a,#b") 0x2C).length),
          (Strings.split (ascii "#a,#b") 0x2C)[i] ∉ (Strings.split (ascii "#a,#b") 0x2C).drop (i + 1) →
          m.lookup (Strings.split (ascii "#a,#b") 0x2C)[i] = some ((keyArgs [ascii "k1"]).getD i []) :=
  ⟨by decide, by decide, newJoinCommand_keys (by decide) (by decide)⟩

/-- `JOIN #a k1,k2`: one channel and two keys; the write of `k2` at index `1`
    of a slice of one entry panics. -/
theorem newJoinCommand_excess_key :
    newJoinCommand [ascii "#a", ascii "k1,k2"] = .panic .indexOutOfRange := by
  decide

end Irc
