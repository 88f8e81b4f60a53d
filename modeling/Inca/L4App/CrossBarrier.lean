import Mathlib.Data.List.Perm.Basic
import Mathlib.Logic.Function.Basic
import Inca.Core.LTS

/-!
# The event queue of the cross-barrier optimizer (`torch/cross_barrier.py`)

Two threads share `_event_queue`. The main thread puts one event per
push-pulled parameter and, in its final step, waits until the queue is
empty, puts a sentinel `(None, None, None)` and joins the poller. The poller
gets an item, leaves on the sentinel, applies an event whose push-pull is
finished and puts any other event back.

Every operation on the queue, on a lock or on a handle is one step, so a
run of `barrier` is an interleaving of the two threads. `poll` may answer
either way at any time.

While the poller has an unfinished event in its hands the queue can be
empty. Main then puts the sentinel in front of the event that is about to
be put back, and the poller leaves with the event still queued.

* `custody`: an enqueued event is applied, queued, or in the poller's hands.
* `all_applied`: if no event is put back behind the sentinel, all are
  applied, once each, when the poller leaves.
* `lost_event_counterexample`: one event, lost; its lock is never released.
-/
namespace Inca.L4.CrossBarrier

/-- A parameter with the handle of its push-pull. -/
structure Event where
  p : Nat
  handle : Nat
  deriving DecidableEq

/-- What stands in the queue; `stop` is `(None, None, None)`. -/
inductive Item
  | event (e : Event)
  | stop
  deriving DecidableEq

/-- The main thread: training, in the loop of the final step, about to put the sentinel, in
`join`, and done.
mirrors byteps/byteps/torch/cross_barrier.py:74-97 (`step`) -/
inductive Main
  | train
  | wait
  | stop
  | join
  | done
  deriving DecidableEq

/-- The poller, by its next operation.
mirrors byteps/byteps/torch/cross_barrier.py:152-186 (`_poll`) -/
inductive Poller
  | get
  | poll (e : Event)
  | update (e : Event)
  | putBack (e : Event)
  | exited
  deriving DecidableEq

/-- `enqueued` and `applied` are history. -/
structure State where
  eventQueue : List Item
  locks : Nat → Bool
  main : Main
  poller : Poller
  enqueued : List Event
  applied : List Event

def State.init : State := ⟨[], fun _ => false, .train, .get, [], []⟩

inductive Label
  | push (e : Event)
  | finalStep
  | empty
  | putStop
  | join
  | get
  | poll (finished : Bool)
  | update
  | putBack
  deriving DecidableEq

/-- mirrors byteps/byteps/torch/cross_barrier.py:132-150 (`_push_pull_grad_async`: the lock is
taken, the event is put), 74-97 (`step`) and 152-186 (`_poll`) -/
def step (s : State) : Label → Option State
  | .push e =>
    if s.main = .train ∧ s.locks e.p = false then
      some { s with
        locks := Function.update s.locks e.p true
        eventQueue := s.eventQueue ++ [.event e]
        enqueued := s.enqueued ++ [e] }
    else none
  | .finalStep => if s.main = .train then some { s with main := .wait } else none
  | .empty =>
    -- `while not self._event_queue.empty(): time.sleep(0.001)`
    if s.main = .wait then some { s with main := if s.eventQueue.isEmpty then .stop else .wait } else none
  | .putStop =>
    if s.main = .stop then some { s with main := .join, eventQueue := s.eventQueue ++ [.stop] } else none
  | .join => if s.main = .join ∧ s.poller = .exited then some { s with main := .done } else none
  | .get =>
    match s.poller, s.eventQueue with
    | .get, .event e :: rest => some { s with eventQueue := rest, poller := .poll e }
    | .get, .stop :: rest => some { s with eventQueue := rest, poller := .exited }
    | _, _ => none
  | .poll finished =>
    match s.poller with
    | .poll e => some { s with poller := if finished then .update e else .putBack e }
    | _ => none
  | .update =>
    match s.poller with
    | .update e => some { s with
        locks := Function.update s.locks e.p false
        poller := .get
        applied := s.applied ++ [e] }
    | _ => none
  | .putBack =>
    match s.poller with
    | .putBack e => some { s with eventQueue := s.eventQueue ++ [.event e], poller := .get }
    | _ => none

def barrier : LTS State Label := LTS.ofFn (· = State.init) step

/-- What a step does, and when. -/
inductive Step (s : State) : Label → State → Prop
  | push {e : Event} (hm : s.main = .train) (hl : s.locks e.p = false) :
    Step s (.push e) { s with
      locks := Function.update s.locks e.p true
      eventQueue := s.eventQueue ++ [.event e]
      enqueued := s.enqueued ++ [e] }
  | finalStep (hm : s.main = .train) : Step s .finalStep { s with main := .wait }
  | empty (hm : s.main = .wait) :
    Step s .empty { s with main := if s.eventQueue.isEmpty then .stop else .wait }
  | putStop (hm : s.main = .stop) :
    Step s .putStop { s with main := .join, eventQueue := s.eventQueue ++ [.stop] }
  | join (hm : s.main = .join) (hp : s.poller = .exited) : Step s .join { s with main := .done }
  | getEvent {e : Event} {rest : List Item} (hp : s.poller = .get) (hq : s.eventQueue = .event e :: rest) :
    Step s .get { s with eventQueue := rest, poller := .poll e }
  | getStop {rest : List Item} (hp : s.poller = .get) (hq : s.eventQueue = .stop :: rest) :
    Step s .get { s with eventQueue := rest, poller := .exited }
  | poll {e : Event} (finished : Bool) (hp : s.poller = .poll e) :
    Step s (.poll finished) { s with poller := if finished then .update e else .putBack e }
  | update {e : Event} (hp : s.poller = .update e) :
    Step s .update { s with
      locks := Function.update s.locks e.p false
      poller := .get
      applied := s.applied ++ [e] }
  | putBack {e : Event} (hp : s.poller = .putBack e) :
    Step s .putBack { s with eventQueue := s.eventQueue ++ [.event e], poller := .get }

theorem step_cases {s s' : State} {l : Label} (h : step s l = some s') : Step s l s' := by
  cases l with
  | push e =>
    simp only [step, Option.ite_none_right_eq_some, Option.some.injEq] at h
    obtain ⟨⟨hm, hl⟩, rfl⟩ := h
    exact .push hm hl
  | finalStep =>
    simp only [step, Option.ite_none_right_eq_some, Option.some.injEq] at h
    obtain ⟨hm, rfl⟩ := h
    exact .finalStep hm
  | empty =>
    simp only [step, Option.ite_none_right_eq_some, Option.some.injEq] at h
    obtain ⟨hm, rfl⟩ := h
    exact .empty hm
  | putStop =>
    simp only [step, Option.ite_none_right_eq_some, Option.some.injEq] at h
    obtain ⟨hm, rfl⟩ := h
    exact .putStop hm
  | join =>
    simp only [step, Option.ite_none_right_eq_some, Option.some.injEq] at h
    obtain ⟨⟨hm, hp⟩, rfl⟩ := h
    exact .join hm hp
  | get =>
    simp only [step] at h
    split at h
    · next e rest hp hq => cases h; exact .getEvent hp hq
    · next rest hp hq => cases h; exact .getStop hp hq
    · cases h
  | poll finished =>
    simp only [step] at h
    split at h
    · next e hp => cases h; exact .poll finished hp
    · cases h
  | update =>
    simp only [step] at h
    split at h
    · next e hp => cases h; exact .update hp
    · cases h
  | putBack =>
    simp only [step] at h
    split at h
    · next e hp => cases h; exact .putBack hp
    · cases h

/-! ## No event gets lost between the threads -/

/-- The events of a queue. -/
def events (q : List Item) : List Event :=
  q.filterMap fun
    | .event e => some e
    | .stop => none

@[simp] theorem events_append (q q' : List Item) : events (q ++ q') = events q ++ events q' :=
  List.filterMap_append
@[simp] theorem events_event (e : Event) (q : List Item) : events (.event e :: q) = e :: events q := rfl
@[simp] theorem events_stop (q : List Item) : events (.stop :: q) = events q := rfl
@[simp] theorem events_nil : events [] = [] := rfl

/-- The event in the poller's hands. -/
def Poller.held : Poller → List Event
  | .poll e | .update e | .putBack e => [e]
  | .get | .exited => []

/-- Every enqueued event is applied, held or queued, and only one of these. -/
def Custody (s : State) : Prop := s.enqueued.Perm (s.applied ++ s.poller.held ++ events s.eventQueue)

theorem custody_step {s s' : State} {l : Label} (hc : Custody s) (h : step s l = some s') : Custody s' := by
  unfold Custody at hc ⊢
  cases step_cases h with
  | @push e => simpa [← List.append_assoc] using hc.append_right [e]
  | finalStep | empty | join => exact hc
  | putStop => simpa using hc
  | getEvent hp hq | getStop hp hq => simpa [hp, hq, Poller.held] using hc
  | poll finished hp => cases finished <;> simpa [hp, Poller.held] using hc
  | update hp => simpa [hp, Poller.held] using hc
  | putBack hp =>
    -- the event moves from the poller's hands to the end of the queue
    refine hc.trans ?_
    simp only [hp, Poller.held, events_append, events_event, events_nil, List.append_nil,
      List.append_assoc]
    exact List.perm_append_comm.append_left s.applied

theorem custody_inductive : barrier.Inductive Custody where
  init := by rintro s rfl; exact List.Perm.refl []
  step := fun _ _ _ hc h => custody_step hc h

/-- **Custody.** In every run an enqueued event is applied, in the poller's hands or queued. -/
theorem custody (s : State) (h : barrier.Reachable s) : Custody s := custody_inductive.reachable s h

/-! ## The sentinel -/

/-- No event is put back while the sentinel is queued. -/
def BeforeStop (s : State) (l : Label) (_ : State) : Prop := l = .putBack → Item.stop ∉ s.eventQueue

instance (s : State) (l : Label) (s' : State) : Decidable (BeforeStop s l s') :=
  inferInstanceAs (Decidable (_ → _))

/-- A queue of events, with or without the sentinel at its end. -/
def queueOf (es : List Event) (stop : Bool) : List Item := es.map .event ++ if stop then [.stop] else []

theorem queueOf_event {es : List Event} {stop : Bool} {e : Event} {rest : List Item}
    (h : queueOf es stop = .event e :: rest) : ∃ es', rest = queueOf es' stop := by
  cases es with
  | nil => cases stop <;> simp [queueOf] at h
  | cons e' es => exact ⟨es, (List.cons.inj h).2.symm⟩

theorem queueOf_stop {es : List Event} {stop : Bool} {rest : List Item}
    (h : queueOf es stop = .stop :: rest) : stop = true ∧ rest = [] := by
  cases es with
  | nil => cases stop <;> simp [queueOf] at h ⊢; exact h
  | cons e' es => simp [queueOf] at h

/-- Main has put the sentinel. -/
def Main.stopped : Main → Bool
  | .join | .done => true
  | _ => false

/-- The sentinel is put once, stays the last item of the queue, and the poller leaves with it. -/
structure Last (s : State) : Prop where
  queue : s.poller ≠ .exited → ∃ es, s.eventQueue = queueOf es s.main.stopped
  exited : s.poller = .exited → s.main.stopped = true ∧ s.eventQueue = []

/-- A step of main that puts no event. -/
theorem Last.setMain {s : State} (h : Last s) {m : Main} (hm : m.stopped = s.main.stopped) :
    Last { s with main := m } :=
  ⟨fun hp => hm ▸ h.queue hp, fun hx => hm ▸ h.exited hx⟩

/-- A step of the poller that leaves the queue alone. -/
theorem Last.setPoller {s : State} (h : Last s) (hp : s.poller ≠ .exited) {p : Poller} (hp' : p ≠ .exited)
    (locks : Nat → Bool) (applied : List Event) :
    Last { s with poller := p, locks := locks, applied := applied } :=
  ⟨fun _ => h.queue hp, fun hx => absurd hx hp'⟩

/-- An event goes to the end of a queue without sentinel. -/
theorem Last.put {s s' : State} (h : Last s) (hp : s.poller ≠ .exited) (hs : s.main.stopped = false)
    (e : Event) (hm : s'.main = s.main) (hp' : s'.poller ≠ .exited)
    (hq : s'.eventQueue = s.eventQueue ++ [.event e]) : Last s' := by
  refine ⟨fun _ => ?_, fun hx => absurd hx hp'⟩
  obtain ⟨es, hes⟩ := h.queue hp
  exact ⟨es ++ [e], by simp [hq, hes, hm, hs, queueOf]⟩

theorem last_step {s s' : State} {l : Label} (hl : Last s) (h : step s l = some s')
    (hg : BeforeStop s l s') : Last s' := by
  -- main's own steps need that the poller is there while main has not put the sentinel
  have hpoll : s.main.stopped = false → s.poller ≠ .exited := by
    intro hs hx
    rw [(hl.exited hx).1] at hs
    cases hs
  cases step_cases h with
  | @push e hm =>
    have hs : s.main.stopped = false := by rw [hm]; rfl
    exact hl.put (hpoll hs) hs e rfl (hpoll hs) rfl
  | finalStep hm => exact hl.setMain (by rw [hm]; rfl)
  | empty hm => exact hl.setMain (by rw [hm]; split <;> rfl)
  | putStop hm =>
    have hs : s.main.stopped = false := by rw [hm]; rfl
    obtain ⟨es, hes⟩ := hl.queue (hpoll hs)
    rw [hs] at hes
    exact ⟨fun _ => ⟨es, by simp [hes, queueOf, Main.stopped]⟩, fun hx => absurd hx (hpoll hs)⟩
  | join hm => exact hl.setMain (by rw [hm]; rfl)
  | getEvent hp hq =>
    obtain ⟨es, hes⟩ := hl.queue (by simp [hp])
    obtain ⟨es', rfl⟩ := queueOf_event (hes.symm.trans hq)
    exact ⟨fun _ => ⟨es', rfl⟩, by simp⟩
  | getStop hp hq =>
    obtain ⟨es, hes⟩ := hl.queue (by simp [hp])
    exact ⟨by simp, fun _ => queueOf_stop (hes.symm.trans hq)⟩
  | poll finished hp =>
    exact hl.setPoller (by simp [hp]) (by cases finished <;> simp) s.locks s.applied
  | update hp => exact hl.setPoller (by simp [hp]) (by simp) _ _
  | @putBack e hp =>
    have hne : s.poller ≠ .exited := by simp [hp]
    obtain ⟨es, hes⟩ := hl.queue hne
    have hs : s.main.stopped = false := by
      have hno := hg rfl
      cases hst : s.main.stopped with
      | false => rfl
      | true => simp [hes, hst, queueOf] at hno
    exact hl.put hne hs e rfl (by simp) rfl

theorem last_inductive : (barrier.restrict BeforeStop).Inductive Last where
  init := by rintro s rfl; exact ⟨fun _ => ⟨[], rfl⟩, by simp [State.init]⟩
  step := fun _ _ _ hl h => last_step hl h.1 h.2

/-- **All applied.** In every run in which no event is put back behind the sentinel, each
enqueued event has been applied, once, by the time the poller leaves. -/
theorem all_applied (s : State) (h : (barrier.restrict BeforeStop).Reachable s)
    (hx : s.poller = .exited) : s.applied.Perm s.enqueued := by
  have hc := custody s h.of_restrict
  -- the poller has nothing in its hands, and nothing is left in the queue
  have hq := ((last_inductive.reachable s h).exited hx).2
  simpa [Custody, hx, hq, Poller.held] using hc.symm

/-! ### Two runs -/

/-- Two events; the second is put back once, before main looks at the queue. -/
def fairRun : List Label :=
  [.push ⟨0, 0⟩, .push ⟨1, 1⟩, .finalStep, .get, .poll true, .update, .get, .poll false, .putBack,
    .empty, .get, .poll true, .empty, .putStop, .update, .get, .join]

theorem all_applied_two_events :
    ∃ s, (barrier.restrict BeforeStop).Reachable s ∧ s.poller = .exited ∧ s.enqueued.length = 2 ∧
      s.applied.Perm s.enqueued := by
  have hr : (barrier.restrict BeforeStop).Reachable State.init := .init rfl
  obtain ⟨s, hs, h1, h2⟩ : ∃ s, LTS.execute (LTS.guarded step BeforeStop) State.init fairRun = some s ∧
      s.poller = .exited ∧ s.enqueued.length = 2 := ⟨_, rfl, rfl, rfl⟩
  have hreach := LTS.Reachable.of_execute hr hs
  exact ⟨s, hreach, h1, h2, all_applied s hreach h1⟩

/-- Main looks at the queue while the poller holds the only event. -/
def losingRun : List Label :=
  [.push ⟨0, 0⟩, .finalStep, .get, .empty, .putStop, .poll false, .putBack, .get, .join]

/-- **Counterexample.** The poller has left, main has joined it, and the event was never applied:
it stands in the queue, and its parameter stays locked. -/
theorem lost_event_counterexample :
    ∃ s, barrier.Reachable s ∧ s.poller = .exited ∧ s.main = .done ∧ s.enqueued = [⟨0, 0⟩] ∧
      s.applied = [] ∧ s.eventQueue = [.event ⟨0, 0⟩] ∧ s.locks 0 = true := by
  have hr : (barrier.restrict fun _ _ _ => True).Reachable State.init := .init rfl
  obtain ⟨s, hs, h⟩ : ∃ s, LTS.execute (LTS.guarded step fun _ _ _ => True) State.init losingRun = some s ∧
      s.poller = .exited ∧ s.main = .done ∧ s.enqueued = [⟨0, 0⟩] ∧ s.applied = [] ∧
      s.eventQueue = [.event ⟨0, 0⟩] ∧ s.locks 0 = true := ⟨_, rfl, rfl, rfl, rfl, rfl, rfl, rfl⟩
  exact ⟨s, (LTS.Reachable.of_execute hr hs).of_restrict, h⟩

end Inca.L4.CrossBarrier
