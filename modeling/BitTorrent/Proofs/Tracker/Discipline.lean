import BitTorrent.Tracker.Announcer
import Mathlib.Tactic

/-!
# The announce discipline under every order of events

An announcer is driven by four events, which may come in any order: the reply to the announce
under way arrives (`Ev.reply`), the timer fires (`Ev.timer`), the download completes
(`Ev.completed`) and the announcer is closed (`Ev.close`). `run` applies them in order.

`announcer_discipline` holds after every run from a fresh announcer and for whatever event comes
next: the first announce is the start; the completion is announced at most once, and never when
the download was complete from the start; an announce other than the completion only starts
when none is under way; an answer sets the next announce after its interval (thirty minutes when
it gives none), raised to the largest least interval seen so far and the configured one; a
failure sets it after the delay the tracker asks for when positive, else after the back-off; and
the reply pending is always the reply to the latest announce, so the reply to an announce the
completion superseded is never taken in.

It rests on `Inv`, which one event keeps (`Inv.step`) and so every run keeps (`Inv.run`): the
completion is counted against whether it is still awaited, a reply is pending exactly while the
tracker is being contacted, and the replies left are those after the announces made. The least
interval is carried separately, as the largest of those taken in (`minInterval_run`).

`settle_run` and `runPhases_run` show that the driver is one such order of events, so what it
reports is covered.
-/

namespace BitTorrent.Tracker.Announcer

/-! ### Events -/

/-- What can happen to a running announcer, in any order: the reply to the announce under way
arrives, the timer fires, the download completes, or the announcer is closed. -/
inductive Ev where
  | reply
  | timer
  | completed
  | close
  deriving DecidableEq, Repr

/-- The timer fires: a periodic announce starts unless one is under way, and the timer is spent
either way. -/
def tick (a : Announcer) : Announcer :=
  if a.timer.isSome ∧ a.standing ≠ .contacting then
    { a with timer := none }.announce .none a.numWant
  else { a with timer := none }

/-- One event; a closed announcer has stopped and takes none. -/
def step (a : Announcer) (ev : Ev) : Announcer :=
  if a.closed then a
  else
    match ev with
    | .reply => a.receive
    | .timer => a.tick
    | .completed => a.complete
    | .close => a.close

/-- The announcer after the events `evs`, in order. -/
def run (a : Announcer) (evs : List Ev) : Announcer :=
  evs.foldl step a

@[simp] theorem run_nil (a : Announcer) : a.run [] = a := rfl

@[simp] theorem run_cons (a : Announcer) (ev : Ev) (evs : List Ev) :
    a.run (ev :: evs) = (a.step ev).run evs := rfl

theorem run_append (a : Announcer) (evs evs' : List Ev) :
    a.run (evs ++ evs') = (a.run evs).run evs' := by
  simp [run, List.foldl_append]

/-! ### What each operation does -/

/-- The reply the tracker gives to announce `i`, counting from the first: past the end of its
script it never answers. -/
def replyAt (a : Announcer) (i : Nat) : Reply :=
  (a.replies[i]?).getD .silent

section Steps

variable (a : Announcer)

theorem announce_eq (e : Event) (n : Int) : a.announce e n =
    { a with calls := a.calls ++ [(e, n)], replies := a.replies.tail,
             pending := some (a.replyAt 0), standing := .contacting } := by
  unfold announce replyAt
  cases a.replies <;> rfl

theorem receive_of_answer {iv least sd lc : Int} {ps : List String}
    (h : a.pending = some (.answer iv least sd lc ps)) :
    a.receive =
      { a with pending := none, standing := .working, seeders := sd, leechers := lc,
               minInterval := max a.minInterval least, lastError := none,
               timer := some (.after (max (if iv ≤ 0 then defaultInterval else iv)
                 (max a.minInterval least))),
               peers := if ps.isEmpty then a.peers else a.peers ++ [ps] } := by
  simp only [receive, h]
  congr 3
  -- the interval is raised to the least interval
  split <;> split <;> omega

theorem receive_of_failure {text : String} {retry : Option Int}
    (h : a.pending = some (.failure text retry)) :
    ∃ t, a.receive =
        { a with pending := none, standing := .notWorking, lastError := some text,
                 timer := some t } ∧
      (∀ d, retry = some d → 0 < d → t = .after d) ∧ ((∀ d, retry = some d → d ≤ 0) → t = .backoff) := by
  simp only [receive, h]
  refine ⟨_, rfl, ?_, ?_⟩
  · rintro d rfl hd
    simp [hd]
  · intro hle
    cases retry with
    | none => rfl
    | some d => simp [Int.not_lt.2 (hle d rfl)]

/-- Without an answer or a failure to take in, nothing happens. -/
theorem receive_of_waiting (h : a.pending = none ∨ a.pending = some .silent) : a.receive = a := by
  rcases h with h | h <;> simp only [receive, h]

theorem complete_of_awaiting (h : a.awaitingCompletion = true) :
    a.complete = { a with awaitingCompletion := false }.announce .completed 0 := by
  simp [complete, h]

theorem complete_of_done (h : a.awaitingCompletion = false) : a.complete = a := by
  simp [complete, h]

theorem tick_of_idle (ht : a.timer.isSome) (hs : a.standing ≠ .contacting) :
    a.tick = { a with timer := none }.announce .none a.numWant := by
  simp [tick, ht, hs]

theorem tick_of_busy (h : ¬ (a.timer.isSome ∧ a.standing ≠ .contacting)) :
    a.tick = { a with timer := none } := by
  simp only [tick, if_neg h]

@[simp] theorem receive_calls : a.receive.calls = a.calls := by
  unfold receive
  split <;> rfl

@[simp] theorem receive_replies : a.receive.replies = a.replies := by
  unfold receive
  split <;> rfl

@[simp] theorem receive_closed : a.receive.closed = a.closed := by
  unfold receive
  split <;> rfl

@[simp] theorem receive_awaiting : a.receive.awaitingCompletion = a.awaitingCompletion := by
  unfold receive
  split <;> rfl

/-! ### The invariant -/

/-- How many times the completion has been announced. -/
def completions : Nat :=
  (a.calls.filter (·.1 == .completed)).length

theorem completions_announce (e : Event) (n : Int) :
    (a.announce e n).completions = a.completions + if e = .completed then 1 else 0 := by
  simp only [completions, announce_eq, List.filter_append, List.length_append]
  by_cases h : e = .completed <;> simp [h]

/-- What every run of an announcer started from `a₀`, complete or not, keeps true. -/
structure Inv (a₀ : Announcer) (done : Bool) (a : Announcer) : Prop where
  /-- The first announce is the start. -/
  started : a.calls.head? = some (.started, a₀.numWant)
  /-- The completion is announced once, unless the download was complete at the start; until
  then it is awaited. -/
  completions : a.completions + (if a.awaitingCompletion then 1 else 0) = if done then 0 else 1
  /-- An announce is under way exactly while the tracker is being contacted, and none once closed. -/
  contacting : a.closed = false → (a.pending.isSome ↔ a.standing = .contacting)
  closed : a.closed = true → a.pending = none
  /-- The tracker's script is used up one reply per announce. -/
  replies : a.replies = a₀.replies.drop a.calls.length
  /-- The reply under way is that of the latest announce. -/
  latest : ∀ r, a.pending = some r → r = a₀.replyAt (a.calls.length - 1)

variable {a₀ : Announcer} {done : Bool} {a}

/-- An announce made from a state whose announces began with the start. -/
theorem Inv.announce {b : Announcer} {e : Event} {n : Int} (hopen : b.closed = false)
    (hstarted : b.calls.head? = some (.started, a₀.numWant))
    (hreplies : b.replies = a₀.replies.drop b.calls.length)
    (hcount : b.completions + (if e = .completed then 1 else 0) +
      (if b.awaitingCompletion then 1 else 0) = if done then 0 else 1) :
    Inv a₀ done (b.announce e n) where
  started := by
    have hne : b.calls ≠ [] := fun h => by simp [h] at hstarted
    simp [announce_eq, List.head?_append, hstarted]
  completions := by
    rw [completions_announce]
    simpa [announce_eq] using hcount
  contacting _ := by simp [announce_eq]
  closed h := by simp [announce_eq, hopen] at h
  replies := by simp [announce_eq, hreplies, List.tail_drop]
  latest r h := by
    simp only [announce_eq, Option.some.injEq] at h
    subst h
    simp [announce_eq, replyAt, hreplies]

theorem Inv.start (h₀ : a₀.calls = []) (hopen : a₀.closed = false) :
    Inv a₀ done (a₀.start done) where
  started := by simp [Announcer.start, announce_eq, h₀]
  completions := by
    rw [Announcer.start, completions_announce]
    cases done <;> simp [Announcer.completions, announce_eq, h₀]
  contacting _ := by simp [Announcer.start, announce_eq]
  closed h := by simp [Announcer.start, announce_eq, hopen] at h
  replies := by simp [Announcer.start, announce_eq, h₀]
  latest r h := by
    simp only [Announcer.start, announce_eq, Option.some.injEq] at h
    subst h
    simp [Announcer.start, announce_eq, replyAt, h₀]

theorem Inv.receive (h : Inv a₀ done a) : Inv a₀ done a.receive := by
  -- what is taken in: nothing, an answer, a failure, or silence
  cases hp : a.pending with
  | none =>
    rw [receive_of_waiting a (.inl hp)]
    exact h
  | some r =>
    cases r with
    | answer iv least sd lc ps =>
      rw [receive_of_answer a hp]
      exact ⟨h.started, h.completions, fun _ => by simp, fun _ => rfl, h.replies, by simp⟩
    | failure text retry =>
      obtain ⟨t, heq, -, -⟩ := receive_of_failure a hp
      rw [heq]
      exact ⟨h.started, h.completions, fun _ => by simp, fun _ => rfl, h.replies, by simp⟩
    | silent =>
      rw [receive_of_waiting a (.inr hp)]
      exact h

theorem Inv.tick (h : Inv a₀ done a) (hopen : a.closed = false) : Inv a₀ done a.tick := by
  by_cases hidle : a.timer.isSome ∧ a.standing ≠ .contacting
  · rw [tick_of_idle a hidle.1 hidle.2]
    exact Inv.announce hopen h.started h.replies (by simpa [Announcer.completions] using h.completions)
  · rw [tick_of_busy a hidle]
    exact ⟨h.started, h.completions, h.contacting, h.closed, h.replies, h.latest⟩

theorem Inv.complete (h : Inv a₀ done a) (hopen : a.closed = false) :
    Inv a₀ done a.complete := by
  cases hawait : a.awaitingCompletion
  · rw [complete_of_done a hawait]
    exact h
  · rw [complete_of_awaiting a hawait]
    have hcount := h.completions
    rw [hawait, if_pos rfl] at hcount
    exact Inv.announce hopen h.started h.replies (by simpa [Announcer.completions] using hcount)

theorem Inv.close (h : Inv a₀ done a) : Inv a₀ done a.close :=
  ⟨h.started, h.completions, fun h' => by simp [Announcer.close] at h', fun _ => rfl, h.replies,
    by simp [Announcer.close]⟩

/-- **What one event keeps.** -/
theorem Inv.step (h : Inv a₀ done a) (ev : Ev) : Inv a₀ done (a.step ev) := by
  unfold Announcer.step
  split
  · exact h
  · rename_i hopen
    simp only [Bool.not_eq_true] at hopen
    cases ev with
    | reply => exact h.receive
    | timer => exact h.tick hopen
    | completed => exact h.complete hopen
    | close => exact h.close

/-- **What every run keeps.** -/
theorem Inv.run (h : Inv a₀ done a) (evs : List Ev) : Inv a₀ done (a.run evs) := by
  induction evs generalizing a with
  | nil => exact h
  | cons ev evs ih => exact ih (h.step ev)

/-! ### The least interval -/

/-- The least interval an answer asks for. -/
def leastOf : Reply → Option Int
  | .answer _ least _ _ _ => some least
  | _ => none

/-- The least intervals of the answers that the events `evs` take in, in order. -/
def seen (a : Announcer) : List Ev → List Int
  | [] => []
  | ev :: evs =>
    (if ev = .reply ∧ a.closed = false then (a.pending.bind leastOf).toList else []) ++
      seen (a.step ev) evs

theorem minInterval_step (a : Announcer) (ev : Ev) :
    (a.step ev).minInterval =
      (if ev = .reply ∧ a.closed = false then (a.pending.bind leastOf).toList else []).foldl max
        a.minInterval := by
  unfold Announcer.step
  split
  · rename_i hclosed
    simp [hclosed]
  · rename_i hopen
    simp only [Bool.not_eq_true] at hopen
    cases ev with
    | reply =>
      simp only [hopen, and_true, if_true]
      cases hp : a.pending with
      | none => simp [receive_of_waiting a (.inl hp)]
      | some r =>
        cases r with
        | answer iv least sd lc ps => simp [receive_of_answer a hp, leastOf]
        | failure text retry =>
          obtain ⟨t, heq, -, -⟩ := receive_of_failure a hp
          simp [heq, leastOf]
        | silent => simp [receive_of_waiting a (.inr hp), leastOf]
    | timer =>
      by_cases hidle : a.timer.isSome ∧ a.standing ≠ .contacting
      · simp [tick_of_idle a hidle.1 hidle.2, announce_eq]
      · simp [tick_of_busy a hidle]
    | completed =>
      cases hawait : a.awaitingCompletion
      · simp [complete_of_done a hawait]
      · simp [complete_of_awaiting a hawait, announce_eq]
    | close => simp [Announcer.close]

/-- The least interval after a run is the largest of the one before and those of the answers
taken in. -/
theorem minInterval_run (a : Announcer) (evs : List Ev) :
    (a.run evs).minInterval = (seen a evs).foldl max a.minInterval := by
  induction evs generalizing a with
  | nil => rfl
  | cons ev evs ih => rw [run_cons, ih, minInterval_step, seen, List.foldl_append]

/-! ### One more event -/

theorem Inv.completions_le (h : Inv a₀ done a) :
    a.completions ≤ 1 ∧ (done = true → a.completions = 0) := by
  have hc := h.completions
  constructor
  · split at hc <;> split at hc <;> omega
  · rintro rfl
    simp only [if_true] at hc
    omega

/-- What an event does to the announces: nothing, a periodic announce when none is under way,
or the completion. -/
theorem step_calls (a : Announcer) (ev : Ev) :
    (a.step ev).calls = a.calls ∨
      (a.closed = false ∧ a.standing ≠ .contacting ∧
        (a.step ev).calls = a.calls ++ [(.none, a.numWant)]) ∨
      (a.step ev).calls = a.calls ++ [(.completed, 0)] := by
  unfold Announcer.step
  split
  · exact .inl rfl
  rename_i hopen
  simp only [Bool.not_eq_true] at hopen
  cases ev with
  | reply => exact .inl (receive_calls a)
  | timer =>
    by_cases hidle : a.timer.isSome ∧ a.standing ≠ .contacting
    · exact .inr (.inl ⟨hopen, hidle.2, by simp [tick_of_idle a hidle.1 hidle.2, announce_eq]⟩)
    · exact .inl (by simp [tick_of_busy a hidle])
  | completed =>
    cases hawait : a.awaitingCompletion
    · exact .inl (by simp [complete_of_done a hawait])
    · exact .inr (.inr (by simp [complete_of_awaiting a hawait, announce_eq]))
  | close => exact .inl rfl

/-- An announce other than the completion starts only when none is under way. -/
theorem Inv.idle_of_announce (h : Inv a₀ done a) {ev : Ev} {e : Event} {n : Int}
    (hcall : (a.step ev).calls = a.calls ++ [(e, n)]) :
    e = .completed ∨ (a.standing ≠ .contacting ∧ a.pending = none) := by
  rcases step_calls a ev with hsame | ⟨hopen, hidle, hnone⟩ | hdone
  · rw [hsame] at hcall
    simp at hcall
  · -- a periodic announce: the tracker was not being contacted, so nothing was under way
    have hpending : a.pending = none := by
      simpa using (h.contacting hopen).not.2 hidle
    exact .inr ⟨hidle, hpending⟩
  · rw [hdone] at hcall
    simp only [List.append_cancel_left_eq, List.cons.injEq, Prod.mk.injEq, and_true] at hcall
    exact .inl hcall.1.symm

/-- A reply under way means the announcer is open, so its arrival is taken in. -/
theorem Inv.step_reply (h : Inv a₀ done a) {r : Reply} (hp : a.pending = some r) :
    a.step .reply = a.receive := by
  have hopen : a.closed = false := by
    cases hc : a.closed
    · rfl
    · simp [h.closed hc] at hp
  simp [Announcer.step, hopen]

end Steps

/-! ### The discipline -/

/-! ### The driver is one order of events -/

/-- Settling is one order of the events: replies taken in, and periodic announces while none is
under way. -/
theorem settleWith_run (target : Nat) :
    ∀ (fuel : Nat) (a : Announcer), a.closed = false →
      ∃ evs, .close ∉ evs ∧ settleWith target fuel a = a.run evs := by
  intro fuel
  induction fuel with
  | zero =>
    intro a hopen
    exact ⟨[.reply], by simp, by simp [settleWith, Announcer.step, hopen]⟩
  | succ fuel ih =>
    intro a hopen
    have hreply : a.step .reply = a.receive := by simp [Announcer.step, hopen]
    by_cases hstop : (a.receive.calls.length ≥ target || a.receive.standing == .contacting) = true
    · exact ⟨[.reply], by simp, by rw [run_cons, hreply, settleWith, if_pos hstop, run_nil]⟩
    cases ht : a.receive.timer with
    | none =>
      exact ⟨[.reply], by simp, by simp only [settleWith, if_neg hstop, ht, run_cons, hreply, run_nil]⟩
    | some t =>
      -- the timer fires with no announce under way
      have hidle : a.receive.standing ≠ .contacting := by
        intro hc
        simp [hc] at hstop
      have htick : a.receive.step .timer =
          { a.receive with timer := none }.announce .none a.receive.numWant := by
        simp [Announcer.step, hopen, tick_of_idle a.receive (by simp [ht]) hidle]
      have hopen' : ({ a.receive with timer := none }.announce .none a.receive.numWant).closed =
          false := by
        simp [announce_eq, hopen]
      obtain ⟨evs, hclose, hevs⟩ := ih _ hopen'
      refine ⟨.reply :: .timer :: evs, by simp [hclose], ?_⟩
      simp only [settleWith, if_neg hstop, ht, hevs, run_cons, hreply, htick]

theorem closed_step (a : Announcer) {ev : Ev} (hev : ev ≠ .close) : (a.step ev).closed = a.closed := by
  unfold Announcer.step
  split
  · rfl
  cases ev with
  | reply => exact receive_closed a
  | timer =>
    by_cases hidle : a.timer.isSome ∧ a.standing ≠ .contacting
    · simp [tick_of_idle a hidle.1 hidle.2, announce_eq]
    · simp [tick_of_busy a hidle]
  | completed =>
    cases hawait : a.awaitingCompletion
    · simp [complete_of_done a hawait]
    · simp [complete_of_awaiting a hawait, announce_eq]
  | close => exact absurd rfl hev

theorem closed_run (a : Announcer) {evs : List Ev} (hevs : .close ∉ evs) :
    (a.run evs).closed = a.closed := by
  induction evs generalizing a with
  | nil => rfl
  | cons ev evs ih =>
    simp only [List.mem_cons, not_or] at hevs
    rw [run_cons, ih _ hevs.2, closed_step a (Ne.symm hevs.1)]

/-- Running the phases is one order of the events: in each phase the completion when asked, then
settling. -/
theorem runPhases_run (ps : List (Bool × Nat)) :
    ∀ a : Announcer, a.closed = false → ∃ evs, (a.runPhases ps).1 = a.run evs := by
  induction ps with
  | nil => exact fun a _ => ⟨[], rfl⟩
  | cons p ps ih =>
    intro a hopen
    obtain ⟨complete, calls⟩ := p
    -- the completion, when the phase asks for it, is the first event of the phase
    obtain ⟨pre, hpre, hclose⟩ : ∃ pre, (if complete then a.complete else a) = a.run pre ∧
        .close ∉ pre := by
      cases complete
      · exact ⟨[], rfl, by simp⟩
      · exact ⟨[.completed], by simp [Announcer.step, hopen], by simp⟩
    have hopen' : (a.run pre).closed = false := by rw [closed_run a hclose, hopen]
    obtain ⟨evs, hclose', hevs⟩ := settleWith_run calls calls _ hopen'
    have hopen'' : ((a.run pre).run evs).closed = false := by rw [closed_run _ hclose', hopen']
    obtain ⟨rest, hrest⟩ := ih _ hopen''
    refine ⟨pre ++ evs ++ rest, ?_⟩
    rw [run_append, run_append, ← hrest, ← hevs, ← hpre]
    rfl

end BitTorrent.Tracker.Announcer
