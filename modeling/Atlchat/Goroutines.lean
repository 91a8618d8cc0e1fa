import Atlchat.UserMode
import Mathlib.Logic.Relation

/-!
# The goroutines of `NewUserModeCommand`

`stringToRunes(str)` makes an unbuffered channel and starts a goroutine that
decodes `str` from the front, sends every rune on the channel, and closes it.
`NewUserModeCommand` starts one such goroutine for every flag token and reads
from it: one receive for the sign, then `for mode := range modeChange` up to
the close. Here the goroutines and their caller are a transition system
(`Sys.Step`): a goroutine moves on its own when it decodes or closes, and
together with the caller when a rune changes hands, the rendezvous of an
unbuffered channel. Runs interleave these steps in every possible order.

* `stringToRunes_sends`: with a receiver taking every rune it sends, the
  goroutine of `stringToRunes(str)` terminates, sending exactly the runes
  `DecodeRuneInString` reads off the front of `str`, as many as
  `RuneCountInString(str)` counts, and then closes; with none, it blocks at a
  send (`Sys.reachable_error_pending`);
* `Sys.reachable_done`: every step keeps what the call is going to return
  (`Sys.result`), so every run that returns, returns what
  `newUserModeCommand` computes: the goroutines refine the forward scan of
  `Atlchat.UserMode`;
* `Sys.every_run_returns`: no run is infinite and none is stuck before the
  return, so every run returns, and returns that;
* `Sys.reachable_done_ok_closed`: a run that returns a command has drained
  and closed every goroutine it started;
* `Sys.reachable_error_pending`: a run that returns `ErrParseCommand` has
  stopped at a token without a sign, and leaves the goroutine of that token
  with the token's runes past the first unsent, for ever;
  `newUserModeCommand_xo_leaks` is the smallest such call.
-/

namespace Irc

open Go

/-- A step relation along which a rank in `ℕ` decreases has no infinite run. -/
theorem no_infinite_run_of_rank {α : Type} (r : α → α → Prop) (rank : α → Nat)
    (hr : ∀ {a b}, r a b → rank b < rank a) : ¬ ∃ f : ℕ → α, ∀ n, r (f n) (f (n + 1)) := by
  rintro ⟨f, hf⟩
  have hle : ∀ n, rank (f n) + n ≤ rank (f 0) := fun n => by
    induction n with
    | zero => omega
    | succ n ih => have := hr (hf n); omega
  have := hle (rank (f 0) + 1)
  omega

/-- Where the goroutine of `stringToRunes` stands. -/
inductive Producer
  /-- At the test of `for len(str) > 0`. -/
  | loop (str : Bytes)
  /-- Blocked on `runes <- rune`; `str` is what is left past the rune. -/
  | send (rune : Rune) (str : Bytes)
  /-- Past `close(runes)`. -/
  | closed
  deriving DecidableEq

namespace Producer

/-- A step of the goroutine: it decodes the next rune (`none`: nothing changes
    hands), hands that rune over to a receiver (`some rune`), or closes the
    channel. -/
inductive Step : Producer → Option Rune → Producer → Prop
  | decode (c : UInt8) (t : Bytes) :
      Step (.loop (c :: t)) none
        (.send (Utf8.decodeRuneInString (c :: t)).1
          ((c :: t).drop (Utf8.decodeRuneInString (c :: t)).2))
  | handOver (rune : Rune) (str : Bytes) : Step (.send rune str) (some rune) (.loop str)
  | close : Step (.loop []) none .closed

/-- A run of the goroutine with a receiver always ready, from `p` to `q`,
    handing over `out`. -/
inductive Run : Producer → List Rune → Producer → Prop
  | refl (p : Producer) : Run p [] p
  | step {p q r : Producer} {o : Option Rune} {out : List Rune} :
      Step p o q → Run q out r → Run p (o.toList ++ out) r

/-- The runes the goroutine has still to hand over. -/
def pending : Producer → List Rune
  | .loop str => Utf8.toRunes str
  | .send rune str => rune :: Utf8.toRunes str
  | .closed => []

/-- A rank every step lowers: two for each byte left, and one more before a
    decode, two more before a hand-over. -/
def rank : Producer → Nat
  | .loop str => 2 * str.length + 1
  | .send _ str => 2 * str.length + 2
  | .closed => 0

theorem Step.rank_lt {p q : Producer} {o : Option Rune} (h : Step p o q) : q.rank < p.rank := by
  cases h with
  | decode c t =>
    have := (Utf8.decodeRuneInString_width c t).1
    simp only [rank, List.length_drop, List.length_cons]
    omega
  | handOver => simp [rank]
  | close => simp [rank]

/-- A step hands over the first pending rune, or nothing. -/
theorem Step.pending_eq {p q : Producer} {o : Option Rune} (h : Step p o q) :
    p.pending = o.toList ++ q.pending := by
  cases h with
  | decode c t => simp [pending, Utf8.toRunes_cons]
  | handOver => rfl
  | close => simp [pending]

theorem Step.not_closed {o : Option Rune} {q : Producer} : ¬ Step .closed o q := nofun

/-- On an ASCII byte the decode step hands over that byte as the rune. -/
theorem Step.decode_ascii {c : UInt8} (h : c < 0x80) (t : Bytes) :
    Step (.loop (c :: t)) none (.send (c.toNat : Rune) t) := by
  simpa [Utf8.decodeRuneInString_ascii h] using Step.decode c t

theorem Run.pending_eq {p q : Producer} {out : List Rune} (h : Run p out q) :
    p.pending = out ++ q.pending := by
  induction h with
  | refl => rfl
  | step hs _ ih => rw [hs.pending_eq, ih, List.append_assoc]

/-- From the loop on `str`, the goroutine hands over the runes of `str` and
    closes. -/
theorem run_loop (str : Bytes) : Run (.loop str) (Utf8.toRunes str) .closed := by
  induction str using Utf8.toRunes.induct with
  | case1 => simpa using Run.step Step.close (Run.refl .closed)
  | case2 c t _ ih =>
    rw [Utf8.toRunes_cons]
    exact Run.step (Step.decode c t) (Run.step (Step.handOver _ _) ih)

/-- No run of the goroutine is infinite. -/
theorem no_infinite_run (p : Producer) :
    ¬ ∃ f : ℕ → Producer, f 0 = p ∧ ∀ n, ∃ o, Step (f n) o (f (n + 1)) :=
  fun ⟨f, _, hf⟩ => no_infinite_run_of_rank (fun p q => ∃ o, Step p o q) rank
    (fun ⟨_, h⟩ => h.rank_lt) ⟨f, hf⟩

/-- The goroutine has closed, or can decode or close, or waits to hand a rune
    over. -/
theorem progress (p : Producer) :
    p = .closed ∨ (∃ q, p.Step none q) ∨ ∃ r q, p.Step (some r) q := by
  rcases p with (_ | ⟨c, t⟩) | ⟨r, str⟩ | _
  · exact .inr (.inl ⟨_, .close⟩)
  · exact .inr (.inl ⟨_, .decode c t⟩)
  · exact .inr (.inr ⟨r, _, .handOver r str⟩)
  · exact .inl rfl

end Producer

/-- The goroutine of `stringToRunes(s)`, run with a receiver that takes every
    rune it sends (a `handOver` is the send and its receive at once), has no
    infinite run and reaches the close; its run to the close sends the runes
    `DecodeRuneInString` reads off the front of `s`, and no others, as many as
    `RuneCountInString(s)` counts. Whether the receiver is there is the
    caller's part: `NewUserModeCommand` stops receiving at a token without a
    sign, and the goroutine then blocks at a send for ever
    (`Sys.reachable_error_pending`). -/
theorem stringToRunes_sends (s : Bytes) :
    (¬ ∃ f : ℕ → Producer, f 0 = .loop s ∧ ∀ n, ∃ o, (f n).Step o (f (n + 1))) ∧
      Producer.Run (.loop s) (Utf8.toRunes s) .closed ∧
      (∀ out, Producer.Run (.loop s) out .closed → out = Utf8.toRunes s) ∧
      (Utf8.toRunes s).length = Utf8.runeCountInString s :=
  ⟨Producer.no_infinite_run _, Producer.run_loop s,
    fun out h => by simpa [Producer.pending] using h.pending_eq.symm,
    (Utf8.runeCountInString_eq_length s).symm⟩

/-! ## The call and its goroutines -/

/-- Where the goroutine of `NewUserModeCommand` stands once the slice is
    made. -/
inductive Consumer
  /-- At `for _, arg := range args[1:]`, with the tokens `rest` to go. -/
  | next (rest : List Bytes)
  /-- At `sig := <-modeChange`, on the channel of the newest goroutine. -/
  | sign (rest : List Bytes)
  /-- In `for mode := range modeChange`, under the sign `add`. -/
  | modes (rest : List Bytes) (add : Bool)
  /-- Returned, or panicked, with `o`. -/
  | done (o : Parsed)

/-- The caller receives from the newest channel: at the sign, or in the range
    loop. -/
def Consumer.receiving : Consumer → Bool
  | .sign _ | .modes _ _ => true
  | _ => false

/-- The caller is done with every channel: at the top of the loop, or returned
    with a command. -/
def Consumer.settled : Consumer → Bool
  | .next _ | .done (.ok _) => true
  | _ => false

/-- A call of `NewUserModeCommand` in progress: the caller, and the goroutines
    it has started. -/
structure Sys where
  /-- `args[0]`. -/
  nickname : Bytes
  /-- The slice of changes. -/
  changes : List ModeChange
  /-- The next index to write. -/
  index : Nat
  /-- The caller. -/
  consumer : Consumer
  /-- The goroutines, the newest first. -/
  producers : List Producer

namespace Sys

/-- The state after `make`: the caller at the loop over the flag tokens, no
    goroutine started; or the panic of `args[0]` or of `make`, before any. -/
def start : List Bytes → Sys
  | [] => ⟨[], [], 0, .done (.panic .indexOutOfRange), []⟩
  | nickname :: flags =>
    let n : Int := Utf8.runeCountInString (Strings.join flags []) - flags.length
    if n < 0 then ⟨nickname, [], 0, .done (.panic .makeSliceLen), []⟩
    else ⟨nickname, List.replicate n.toNat ⟨0, false⟩, 0, .next flags, []⟩

/-- The newest goroutine, the one the caller receives from. -/
def current (s : Sys) : Producer := s.producers.headD .closed

/-- A step of the call: of the caller, of one goroutine, or of both at a
    rendezvous on the newest channel. -/
inductive Step : Sys → Sys → Prop
  /-- `modeChange := stringToRunes(arg)` starts a goroutine. -/
  | spawn {s : Sys} {arg : Bytes} {rest : List Bytes} (h : s.consumer = .next (arg :: rest)) :
      Step s { s with consumer := .sign rest, producers := .loop arg :: s.producers }
  /-- The loop is over: `return cmd, nil`. -/
  | finish {s : Sys} (h : s.consumer = .next []) :
      Step s { s with consumer := .done (.ok (.mode s.nickname s.changes)) }
  /-- A goroutine decodes or closes, whatever the caller does. -/
  | produce {s : Sys} {j : Nat} {p q : Producer} (hj : s.producers[j]? = some p)
      (hp : p.Step none q) : Step s { s with producers := s.producers.set j q }
  /-- `sig := <-modeChange` receives `sig`, which must be a sign. -/
  | sign {s : Sys} {rest : List Bytes} {p q : Producer} {ps : List Producer} {sig : Rune}
      (h : s.consumer = .sign rest) (hs : s.producers = p :: ps) (hp : p.Step (some sig) q) :
      Step s { s with
        consumer := if sig ≠ 0x2B ∧ sig ≠ 0x2D then .done (.error .parseCommand)
          else .modes rest (sig = 0x2B),
        producers := q :: ps }
  /-- `sig := <-modeChange` on a closed channel: the zero rune, no sign. -/
  | signClosed {s : Sys} {rest : List Bytes} {ps : List Producer}
      (h : s.consumer = .sign rest) (hs : s.producers = .closed :: ps) :
      Step s { s with consumer := .done (.error .parseCommand) }
  /-- `mode` received, and written at `index`. -/
  | mode {s : Sys} {rest : List Bytes} {add : Bool} {p q : Producer} {ps : List Producer}
      {r : Rune} (h : s.consumer = .modes rest add) (hs : s.producers = p :: ps)
      (hp : p.Step (some r) q) :
      Step s (match setIndex s.changes s.index ⟨r, add⟩ with
        | .ok changes => { s with changes := changes, index := s.index + 1, producers := q :: ps }
        | .error e => { s with consumer := .done (.panic e), producers := q :: ps })
  /-- The channel is closed: the range loop is over. -/
  | rangeEnd {s : Sys} {rest : List Bytes} {add : Bool} {ps : List Producer}
      (h : s.consumer = .modes rest add) (hs : s.producers = .closed :: ps) :
      Step s { s with consumer := .next rest }

/-- The states a call `NewUserModeCommand(args)` reaches, in every
    interleaving. -/
def Reachable (args : List Bytes) : Sys → Prop := Relation.ReflTransGen Step (start args)

/-- An invariant of the start that every step keeps holds in every reachable
    state. -/
theorem reachable_inv {args : List Bytes} {P : Sys → Prop} (h0 : P (start args))
    (hs : ∀ {s s'}, Step s s' → P s → P s') {s : Sys} (h : Reachable args s) : P s := by
  induction h with
  | refl => exact h0
  | tail _ hst ih => exact hs hst ih

/-- The step of a goroutine leaves what the newest one has to send. -/
theorem pending_headD_set {ps : List Producer} {j : Nat} {p q : Producer}
    (hj : ps[j]? = some p) (hp : p.Step none q) :
    ((ps.set j q).headD .closed).pending = (ps.headD .closed).pending := by
  rcases ps with _ | ⟨p', ps⟩
  · simp at hj
  · rcases j with _ | j
    · simp only [List.getElem?_cons_zero, Option.some.injEq] at hj
      subst hj
      simp [hp.pending_eq]
    · rfl

/-- Once the call has returned, only goroutines move. -/
theorem Step.of_done {s s' : Sys} {o : Parsed} (h : Step s s') (hd : s.consumer = .done o) :
    ∃ j p q, s.producers[j]? = some p ∧ p.Step none q ∧
      s' = { s with producers := s.producers.set j q } := by
  cases h with
  | produce hj hp => exact ⟨_, _, _, hj, hp, rfl⟩
  | _ => simp_all

/-- Once the call has returned, it keeps its outcome, and the newest goroutine
    what it has to send. -/
theorem done_stable {s s' : Sys} {o : Parsed} (h : Relation.ReflTransGen Step s s')
    (hd : s.consumer = .done o) :
    s'.consumer = .done o ∧ s'.current.pending = s.current.pending := by
  induction h with
  | refl => exact ⟨hd, rfl⟩
  | tail _ hst ih =>
    obtain ⟨j, p, q, hj, hp, rfl⟩ := hst.of_done ih.1
    exact ⟨ih.1, (pending_headD_set hj hp).trans ih.2⟩

end Sys

/-! ## Two runs -/

/-- `MODE nick +i`, returned: `i` added, the goroutine of `+i` closed. -/
def plusIReturned : Sys :=
  ⟨ascii "nick", [⟨0x69, true⟩], 1, .done (.ok (.mode (ascii "nick") [⟨0x69, true⟩])), [.closed]⟩

/-- The run of `MODE nick +i` in the order of the Go code: every rune received
    as soon as it is decoded. -/
theorem reachable_plusIReturned : Sys.Reachable [ascii "nick", ascii "+i"] plusIReturned := by
  have hstart : Sys.start [ascii "nick", ascii "+i"] =
      ⟨ascii "nick", [⟨0, false⟩], 0, .next [ascii "+i"], []⟩ := by
    have h : Utf8.toRunes (ascii "+i") = [0x2B, 0x69] := Utf8.toRunes_of_ascii (by decide)
    simp [Sys.start, Strings.join_nil, Utf8.runeCountInString_eq_length, h]
  unfold Sys.Reachable
  rw [hstart]
  exact .head (.spawn rfl) <| .head (@Sys.Step.produce _ 0 _ _ rfl (.decode_ascii (by decide) _)) <|
    .head (.sign rfl rfl (.handOver _ _)) <|
    .head (@Sys.Step.produce _ 0 _ _ rfl (.decode_ascii (by decide) _)) <|
    .head (.mode rfl rfl (.handOver _ _)) <| .head (@Sys.Step.produce _ 0 _ _ rfl .close) <|
    .head (.rangeEnd rfl rfl) <| .head (.finish rfl) .refl

theorem toRunes_xo : Utf8.toRunes (ascii "xo") = [0x78, 0x6F] := Utf8.toRunes_of_ascii (by decide)

/-- `MODE nick xo`, returned with `ErrParseCommand`, its goroutine blocked on
    the send of `o`. -/
def xoBlocked : Sys :=
  ⟨ascii "nick", [⟨0, false⟩], 0, .done (.error .parseCommand), [.send 0x6F []]⟩

/-- The run of `MODE nick xo` in which the goroutine decodes `o` after the
    caller has returned. -/
theorem reachable_xoBlocked : Sys.Reachable [ascii "nick", ascii "xo"] xoBlocked := by
  have hstart : Sys.start [ascii "nick", ascii "xo"] =
      ⟨ascii "nick", [⟨0, false⟩], 0, .next [ascii "xo"], []⟩ := by
    simp [Sys.start, Strings.join_nil, Utf8.runeCountInString_eq_length, toRunes_xo]
  unfold Sys.Reachable
  rw [hstart]
  exact .head (.spawn rfl) <| .head (@Sys.Step.produce _ 0 _ _ rfl (.decode_ascii (by decide) _)) <|
    .head (.sign rfl rfl (.handOver _ _)) <|
    .head (@Sys.Step.produce _ 0 _ _ rfl (.decode_ascii (by decide) _)) .refl

namespace Sys

/-! ## Refinement of the forward scan -/

/-- What the call is going to return from `s`: the rest of the loop, run on
    the runes the newest goroutine has still to send. -/
def result (s : Sys) : Parsed :=
  match s.consumer with
  | .next rest => userModeLoop s.nickname rest s.changes s.index
  | .sign rest => userModeToken (userModeLoop s.nickname rest) s.current.pending s.changes s.index
  | .modes rest add =>
    afterWrites (userModeLoop s.nickname rest) (writeModes add s.current.pending s.changes s.index)
  | .done o => o

theorem result_start (args : List Bytes) : (start args).result = newUserModeCommand args := by
  rcases args with _ | ⟨nickname, flags⟩
  · rfl
  · simp only [start, newUserModeCommand]
    split_ifs <;> rfl

/-- Every step keeps what the call is going to return. -/
theorem Step.result_eq {s s' : Sys} (h : Step s s') : s'.result = s.result := by
  cases h with
  | spawn h => simp [result, h, current, Producer.pending, userModeLoop]
  | finish h => simp [result, h, userModeLoop]
  | produce hj hp =>
    simp only [result, current, pending_headD_set hj hp]
  | @sign rest _ _ _ sig h hs hp =>
    cases hp
    by_cases hc : sig ≠ 0x2B ∧ sig ≠ 0x2D <;>
      simp [result, h, hs, hc, current, Producer.pending, userModeToken]
  | signClosed h hs => simp [result, h, hs, current, Producer.pending, userModeToken]
  | @mode rest add _ _ _ r h hs hp =>
    cases hp
    cases hw : setIndex s.changes s.index ⟨r, add⟩ <;>
      simp [result, h, hs, hw, current, Producer.pending, writeModes, setFrom, afterWrites, bind, Except.bind]
  | rangeEnd h hs => simp [result, h, hs, current, Producer.pending, writeModes, setFrom, afterWrites]

/-- Every state a call reaches is on its way to what `newUserModeCommand`
    returns. -/
theorem reachable_result {args : List Bytes} {s : Sys} (h : Reachable args s) :
    s.result = newUserModeCommand args :=
  reachable_inv (result_start args) (fun hst ih => hst.result_eq.trans ih) h

/-- In every interleaving, a call that returns, returns what
    `newUserModeCommand` computes. -/
theorem reachable_done {args : List Bytes} {s : Sys} {o : Parsed} (h : Reachable args s)
    (hd : s.consumer = .done o) : o = newUserModeCommand args := by
  simpa [result, hd] using reachable_result h

theorem reachable_done_xo :
    Sys.Reachable [ascii "nick", ascii "xo"] xoBlocked ∧
      xoBlocked.consumer = .done (.error .parseCommand) ∧
      Parsed.error .parseCommand = newUserModeCommand [ascii "nick", ascii "xo"] :=
  ⟨reachable_xoBlocked, rfl, Sys.reachable_done reachable_xoBlocked rfl⟩

/-! ## Draining -/

/-- The goroutines the caller is done with have closed: all but the newest
    always, and the newest too once the caller is settled. -/
structure Drained (s : Sys) : Prop where
  tail_closed : ∀ p ∈ s.producers.tail, p = .closed
  nonempty : s.consumer.receiving → s.producers ≠ []
  current_closed : s.consumer.settled → s.current = .closed

theorem drained_start (args : List Bytes) : (start args).Drained := by
  rcases args with _ | ⟨nickname, flags⟩
  · exact ⟨by simp [start], by simp [start, Consumer.receiving], by simp [start, current]⟩
  · simp only [start]
    split_ifs
    · exact ⟨by simp, by simp [Consumer.receiving], by simp [current]⟩
    · exact ⟨by simp, by simp [Consumer.receiving], by simp [current]⟩

/-- Only the newest goroutine of a drained call can move on its own, and only
    while the caller is not settled. -/
theorem Drained.produce {s : Sys} {j : Nat} {p q : Producer} (hd : s.Drained)
    (hj : s.producers[j]? = some p) (hp : p.Step none q) :
    ∃ ps, s.producers = p :: ps ∧ j = 0 ∧ s.consumer.settled = false := by
  have hp' : p ≠ .closed := by rintro rfl; exact Producer.Step.not_closed hp
  rcases hs : s.producers with _ | ⟨p0, ps⟩
  · simp [hs] at hj
  rcases j with _ | j
  · simp only [hs, List.getElem?_cons_zero, Option.some.injEq] at hj
    subst hj
    exact ⟨ps, rfl, rfl, Bool.eq_false_iff.2 fun hc => hp' (by simpa [current, hs] using hd.current_closed hc)⟩
  · have hm : p ∈ ps := List.getElem?_mem (by simpa [hs] using hj)
    exact absurd (hd.tail_closed p (by simpa [hs] using hm)) hp'

theorem Step.drained {s s' : Sys} (h : Step s s') (hd : s.Drained) : s'.Drained := by
  cases h with
  | spawn h =>
    have hc := hd.current_closed (by simp [h, Consumer.settled])
    refine ⟨fun p hp => ?_, by simp, by simp [Consumer.settled]⟩
    rcases hs : s.producers with _ | ⟨p0, ps⟩
    · simp [hs] at hp
    · simp only [hs, List.tail_cons, List.mem_cons] at hp
      rcases hp with rfl | hp
      · simpa [current, hs] using hc
      · exact hd.tail_closed p (by simp [hs, hp])
  | finish h =>
    exact ⟨hd.tail_closed, by simp [Consumer.receiving],
      fun _ => hd.current_closed (by simp [h, Consumer.settled])⟩
  | produce hj hp =>
    obtain ⟨ps, hs, rfl, hc⟩ := hd.produce hj hp
    exact ⟨by simpa [hs] using hd.tail_closed, by simp [hs], by simp [hc]⟩
  | @sign rest _ _ ps sig h hs hp =>
    have ht : ∀ p ∈ ps, p = .closed := by simpa [hs] using hd.tail_closed
    by_cases hc : sig ≠ 0x2B ∧ sig ≠ 0x2D <;>
      exact ⟨by simpa using ht, by simp, by simp [hc, Consumer.settled]⟩
  | signClosed h hs => exact ⟨hd.tail_closed, by simp [Consumer.receiving], by simp [Consumer.settled]⟩
  | @mode rest add _ _ ps r h hs hp =>
    have ht : ∀ p ∈ ps, p = .closed := by simpa [hs] using hd.tail_closed
    cases setIndex s.changes s.index ⟨r, add⟩ with
    | ok => exact ⟨by simpa using ht, by simp, by simp [h, Consumer.settled]⟩
    | error => exact ⟨by simpa using ht, by simp, by simp [Consumer.settled]⟩
  | rangeEnd h hs =>
    exact ⟨by simpa [hs] using hd.tail_closed, by simp [Consumer.receiving], by simp [current, hs]⟩

theorem reachable_drained {args : List Bytes} {s : Sys} (h : Reachable args s) : s.Drained :=
  reachable_inv (drained_start args) (fun hst ih => hst.drained ih) h

/-- A call that returns a command has drained and closed every goroutine it
    started. -/
theorem reachable_done_ok_closed {args : List Bytes} {s : Sys} {cmd : Command}
    (h : Reachable args s) (hd : s.consumer = .done (.ok cmd)) : ∀ p ∈ s.producers, p = .closed := by
  have hs := reachable_drained h
  have hc := hs.current_closed (by simp [hd, Consumer.settled])
  rcases hps : s.producers with _ | ⟨p0, ps⟩
  · simp
  · have ht := hs.tail_closed
    simp only [hps, List.tail_cons] at ht
    simp only [current, hps, List.headD_cons] at hc
    simpa [hc] using ht

theorem reachable_done_ok_closed_plusI :
    Sys.Reachable [ascii "nick", ascii "+i"] plusIReturned ∧
      plusIReturned.consumer = .done (.ok (.mode (ascii "nick") [⟨0x69, true⟩])) ∧
      ∀ p ∈ plusIReturned.producers, p = .closed :=
  ⟨reachable_plusIReturned, rfl, Sys.reachable_done_ok_closed reachable_plusIReturned rfl⟩

/-! ## The goroutine left behind by an error -/

/-- What the newest goroutine has to send, against the flag tokens `flags`: at
    the sign of a token, all the token's runes; after an error, the runes past
    the first of a token without a sign. -/
def Tracks (flags : List Bytes) (s : Sys) : Prop :=
  match s.consumer with
  | .next rest | .modes rest _ => rest <:+ flags
  | .sign rest => ∃ t, t :: rest <:+ flags ∧ s.current.pending = Utf8.toRunes t
  | .done (.error _) => ∃ t ∈ flags, ¬ Signed t ∧ s.current.pending = (Utf8.toRunes t).tail
  | .done (.ok _) | .done (.panic _) => True

theorem tracks_start (args : List Bytes) : (start args).Tracks args.tail := by
  rcases args with _ | ⟨nickname, flags⟩
  · simp [start, Tracks]
  · simp only [start]
    split_ifs <;> simp [Tracks]

/-- `Tracks` reads only the caller and what the newest goroutine has to send. -/
theorem Tracks.of_congr {flags : List Bytes} {s s' : Sys} (ht : s.Tracks flags)
    (hc : s'.consumer = s.consumer) (hp : s'.current.pending = s.current.pending) :
    s'.Tracks flags := by
  unfold Tracks
  rwa [hc, hp]

theorem Step.tracks {flags : List Bytes} {s s' : Sys} (h : Step s s') (ht : s.Tracks flags) :
    s'.Tracks flags := by
  cases h with
  | spawn h =>
    simp only [Tracks, h] at ht ⊢
    exact ⟨_, ht, rfl⟩
  | finish h => simp [Tracks]
  | produce hj hp => exact ht.of_congr rfl (pending_headD_set hj hp)
  | @sign rest p q ps sig h hs hp =>
    simp only [Tracks, h, current, hs, List.headD_cons] at ht
    obtain ⟨t, hsuf, hpt⟩ := ht
    have hq : Utf8.toRunes t = sig :: q.pending := by simpa using hpt ▸ hp.pending_eq
    by_cases hc : sig ≠ 0x2B ∧ sig ≠ 0x2D
    · simp only [Tracks, if_pos hc, current, List.headD_cons]
      exact ⟨t, hsuf.subset (List.mem_cons_self _ _), by simp [Signed, hq, hc], by simp [hq]⟩
    · simpa [Tracks, hc] using (List.suffix_cons t rest).trans hsuf
  | @signClosed rest ps h hs =>
    simp only [Tracks, h, current, hs, List.headD_cons, Producer.pending] at ht
    obtain ⟨t, hsuf, hpt⟩ := ht
    exact ⟨t, hsuf.subset (List.mem_cons_self _ _), by simp [Signed, ← hpt],
      by simp [current, hs, Producer.pending, ← hpt]⟩
  | @mode rest add _ _ _ r h hs hp =>
    cases setIndex s.changes s.index ⟨r, add⟩ <;> simp_all [Tracks]
  | rangeEnd h hs => simp_all [Tracks]

theorem reachable_tracks {args : List Bytes} {s : Sys} (h : Reachable args s) :
    s.Tracks args.tail :=
  reachable_inv (tracks_start args) (fun hst ih => hst.tracks ih) h

/-- A call that fails with `ErrParseCommand` has stopped at a flag token
    without a sign, and from then on the goroutine of that token keeps the
    token's runes past the first unsent: when there are any, it never
    closes. -/
theorem reachable_error_pending {args : List Bytes} {s s' : Sys} {e : ParseError}
    (h : Reachable args s) (hd : s.consumer = .done (.error e))
    (h' : Relation.ReflTransGen Step s s') :
    s'.consumer = .done (.error e) ∧
      ∃ t ∈ args.tail, ¬ Signed t ∧ s'.current.pending = (Utf8.toRunes t).tail := by
  obtain ⟨hd', hp⟩ := done_stable h' hd
  have ht := reachable_tracks h
  simp only [Tracks, hd] at ht
  exact ⟨hd', hp ▸ ht⟩

theorem reachable_error_pending_xo :
    Sys.Reachable [ascii "nick", ascii "xo"] xoBlocked ∧
      xoBlocked.consumer = .done (.error .parseCommand) ∧
      ∃ t ∈ [ascii "xo"], ¬ Signed t ∧ xoBlocked.current.pending = (Utf8.toRunes t).tail :=
  ⟨reachable_xoBlocked, rfl, (Sys.reachable_error_pending reachable_xoBlocked rfl .refl).2⟩

/-! ## Every run returns -/

/-- Two for each byte of the tokens still to read, and four for each token. -/
def tokensRank : List Bytes → Nat
  | [] => 0
  | t :: rest => 2 * t.length + 4 + tokensRank rest

/-- The ranks of the goroutines, summed. -/
def producersRank : List Producer → Nat
  | [] => 0
  | p :: ps => p.rank + producersRank ps

/-- The caller's part of the rank: its tokens to go, and its place in the
    loop. -/
def consumerRank : Consumer → Nat
  | .next rest => tokensRank rest + 1
  | .sign rest => tokensRank rest + 3
  | .modes rest _ => tokensRank rest + 2
  | .done _ => 0

/-- A rank every step of the call lowers. -/
def rank (s : Sys) : Nat := producersRank s.producers + consumerRank s.consumer

theorem producersRank_set_lt {ps : List Producer} {j : Nat} {p q : Producer}
    (hj : ps[j]? = some p) (h : q.rank < p.rank) : producersRank (ps.set j q) < producersRank ps := by
  induction ps generalizing j with
  | nil => simp at hj
  | cons p0 ps ih =>
    rcases j with _ | j
    · simp only [List.getElem?_cons_zero, Option.some.injEq] at hj
      subst hj
      simpa [producersRank] using h
    · simpa [producersRank] using ih (by simpa using hj)

theorem Step.rank_lt {s s' : Sys} (h : Step s s') : s'.rank < s.rank := by
  cases h with
  | spawn h => simp [rank, h, consumerRank, tokensRank, producersRank, Producer.rank]; omega
  | finish h => simp [rank, h, consumerRank]
  | produce hj hp => simpa [rank] using producersRank_set_lt hj hp.rank_lt
  | @sign rest _ _ _ sig h hs hp =>
    have := hp.rank_lt
    by_cases hc : sig ≠ 0x2B ∧ sig ≠ 0x2D <;> simp [rank, h, hs, hc, consumerRank, producersRank] <;> omega
  | signClosed h hs => simp [rank, h, hs, consumerRank]
  | @mode rest add _ _ _ r h hs hp =>
    have := hp.rank_lt
    cases setIndex s.changes s.index ⟨r, add⟩ <;> simp [rank, h, hs, consumerRank, producersRank] <;> omega
  | rangeEnd h hs => simp [rank, h, hs, consumerRank, producersRank, Producer.rank]

/-- Before the call returns, a drained call can always take a step: the
    caller's, or the newest goroutine's. -/
theorem Drained.progress {s : Sys} (hd : s.Drained) (hc : ∀ o, s.consumer ≠ .done o) :
    ∃ s', Step s s' := by
  rcases hcs : s.consumer with (_ | ⟨arg, rest⟩) | rest | ⟨rest, add⟩ | o
  · exact ⟨_, .finish hcs⟩
  · exact ⟨_, .spawn hcs⟩
  all_goals first | exact absurd hcs (hc _) | skip
  all_goals
    obtain ⟨p, ps, hps⟩ := List.exists_cons_of_ne_nil (hd.nonempty (by simp [hcs, Consumer.receiving]))
    rcases Producer.progress p with rfl | ⟨q, hq⟩ | ⟨r, q, hq⟩
    · first | exact ⟨_, .signClosed hcs hps⟩ | exact ⟨_, .rangeEnd hcs hps⟩
    · exact ⟨_, @Step.produce s 0 p q (by simp [hps]) hq⟩
    · first | exact ⟨_, .sign hcs hps hq⟩ | exact ⟨_, .mode hcs hps hq⟩

/-- From every state some run leads to a state with no step left. -/
theorem exists_stuck (s : Sys) : ∃ s', Relation.ReflTransGen Step s s' ∧ ∀ s'', ¬ Step s' s'' := by
  by_cases hs : ∃ s', Step s s'
  · obtain ⟨s', hs'⟩ := hs
    have := hs'.rank_lt
    obtain ⟨t, ht, hstuck⟩ := exists_stuck s'
    exact ⟨t, .head hs' ht, hstuck⟩
  · exact ⟨s, .refl, fun s'' h'' => hs ⟨s'', h''⟩⟩
termination_by s.rank

/-- In every interleaving, a call of `NewUserModeCommand` returns what
    `newUserModeCommand` computes: no run goes on for ever, some run stops,
    and every run that stops has returned that. -/
theorem every_run_returns (args : List Bytes) :
    (¬ ∃ f : ℕ → Sys, f 0 = start args ∧ ∀ n, Step (f n) (f (n + 1))) ∧
      (∃ s, Reachable args s ∧ ∀ s', ¬ Step s s') ∧
      ∀ s, Reachable args s → (∀ s', ¬ Step s s') → s.consumer = .done (newUserModeCommand args) := by
  refine ⟨fun ⟨f, _, hf⟩ => no_infinite_run_of_rank Step rank Step.rank_lt ⟨f, hf⟩,
    exists_stuck (start args), fun s h hs => ?_⟩
  by_cases hc : ∀ o, s.consumer ≠ .done o
  · exact absurd ((reachable_drained h).progress hc) fun ⟨s', h'⟩ => hs s' h'
  · push_neg at hc
    obtain ⟨o, hd⟩ := hc
    have hr := reachable_result h
    simp only [result, hd] at hr
    rw [hd, hr]

end Sys

/-! ## The leak of `MODE nick xo` -/

/-- `MODE nick xo` fails with `ErrParseCommand` at `xo`, which has no sign. One
    run ends with the goroutine of `xo` blocked on the send of `o` and no step
    left to take; and in every run, once the call has returned, `o` is still
    unsent. -/
theorem newUserModeCommand_xo_leaks :
    (∃ s, Sys.Reachable [ascii "nick", ascii "xo"] s ∧
        s.consumer = .done (.error .parseCommand) ∧ s.producers = [.send 0x6F []] ∧
        ∀ s', ¬ Sys.Step s s') ∧
      ∀ s, Sys.Reachable [ascii "nick", ascii "xo"] s → ∀ o, s.consumer = .done o →
        o = .error .parseCommand ∧ s.current.pending = [0x6F] := by
  refine ⟨⟨_, reachable_xoBlocked, rfl, rfl, fun s' h => ?_⟩, fun s hs o hd => ?_⟩
  · obtain ⟨j, p, q, hj, hp, -⟩ := h.of_done rfl
    rcases j with _ | j <;> simp [xoBlocked] at hj
    subst hj
    cases hp
  · have hr := Sys.reachable_result hs
    simp only [Sys.result, hd] at hr
    have ho : o = .error .parseCommand := by
      simpa [newUserModeCommand, Strings.join_nil, Utf8.runeCountInString_eq_length, toRunes_xo,
        userModeLoop, userModeToken] using hr
    subst ho
    have ht := Sys.reachable_tracks hs
    simp only [Sys.Tracks, hd] at ht
    obtain ⟨t, ht, -, hp⟩ := ht
    simp only [List.tail_cons, List.mem_singleton] at ht
    subst ht
    simpa [toRunes_xo] using hp

end Irc
