import Inca.Core.Heap
import Inca.Core.LTS

/-!
# The engine's priority queue (`byteps/server/queue.h`)

Without scheduling a queue; with scheduling a heap whose comparator reads
`push_cnt_`, the number of messages of a key since its counter was cleared:
the message whose key has been pushed least often comes first, then the
older one.

The log of a run records what was pushed and popped.

* `fifo_per_key`: messages of one key are popped in the order in which they
  were pushed, if scheduling is off, or if ids grow in the order of the
  pushes (the handler takes them from `timestamp_++`, under its lock) and no
  `Push` or `ClearCounter` moves a counter so that two messages in the queue
  change their order. The vector is then always a heap.
* `fifo_counterexample`: pushing counts, so it changes the comparator under
  the messages already in the heap; five pushes and two pops swap two
  messages of one key.
-/
namespace Inca.L2

/-- mirrors byteps/byteps/server/server.h:75-85 (`BytePSEngineMessage`); what the queue does not
look at is the `body`. -/
structure EngineMessage (β : Type) where
  id : Nat
  key : Nat
  body : β

/-- mirrors byteps/byteps/server/queue.h:99-105 -/
structure PriorityQueue (β : Type) where
  enableSchedule : Bool
  queue : List (EngineMessage β)
  pushCnt : Nat → Nat

namespace PriorityQueue
variable {β : Type}

def empty (enableSchedule : Bool) : PriorityQueue β := ⟨enableSchedule, [], fun _ => 0⟩

/-- mirrors byteps/byteps/server/queue.h:90-96 -/
def comparePriority (pushCnt : Nat → Nat) (a b : EngineMessage β) : Bool :=
  if pushCnt a.key = pushCnt b.key then b.id < a.id else pushCnt b.key < pushCnt a.key

/-- mirrors byteps/byteps/server/queue.h:49-62 -/
def push (q : PriorityQueue β) (m : EngineMessage β) : PriorityQueue β :=
  if q.enableSchedule then
    let pushCnt := Function.update q.pushCnt m.key (q.pushCnt m.key + 1)
    { q with
      pushCnt := pushCnt
      queue := Heap.pushHeap (comparePriority pushCnt) (q.queue ++ [m]) }
  else { q with queue := q.queue ++ [m] }

/-- mirrors byteps/byteps/server/queue.h:68-83; `none` while the queue is empty and the caller
waits -/
def waitAndPop (q : PriorityQueue β) : Option (EngineMessage β × PriorityQueue β) :=
  if q.enableSchedule then
    (Heap.popHeap (comparePriority q.pushCnt) q.queue).map fun (m, rest) => (m, { q with queue := rest })
  else
    match q.queue with
    | [] => none
    | m :: rest => some (m, { q with queue := rest })

/-- mirrors byteps/byteps/server/queue.h:85-89 -/
def clearCounter (q : PriorityQueue β) (key : Nat) : PriorityQueue β :=
  if q.enableSchedule then { q with pushCnt := Function.update q.pushCnt key 0 } else q

/-! ## What the calls do to the messages -/

theorem push_perm (q : PriorityQueue β) (m : EngineMessage β) : (q.push m).queue.Perm (q.queue ++ [m]) := by
  unfold push
  split
  · exact Heap.pushHeap_perm _ _
  · exact .refl _

theorem waitAndPop_perm {q q' : PriorityQueue β} {m : EngineMessage β} (h : q.waitAndPop = some (m, q')) :
    q.queue.Perm (m :: q'.queue) ∧ q'.enableSchedule = q.enableSchedule := by
  unfold waitAndPop at h
  split at h
  · simp only [Option.map_eq_some_iff, Prod.mk.injEq, Prod.exists] at h
    obtain ⟨m, rest, hp, rfl, rfl⟩ := h
    exact ⟨(Heap.popHeap_perm _ hp).2, rfl⟩
  · split at h
    · cases h
    · rename_i hq
      cases h
      exact ⟨by rw [hq], rfl⟩

/-- What a queue may do to the order of its messages: nothing without scheduling. -/
structure Reorder {α : Type} (enableSchedule : Bool) (l l' : List α) : Prop where
  perm : l.Perm l'
  eq : enableSchedule = false → l = l'

theorem Reorder.refl {α : Type} (b : Bool) (l : List α) : Reorder b l l := ⟨.refl l, fun _ => rfl⟩

theorem Reorder.trans {α : Type} {b : Bool} {l₁ l₂ l₃ : List α} (h₁ : Reorder b l₁ l₂)
    (h₂ : Reorder b l₂ l₃) : Reorder b l₁ l₃ :=
  ⟨h₁.perm.trans h₂.perm, fun hb => (h₁.eq hb).trans (h₂.eq hb)⟩

theorem Reorder.append_right {α : Type} {b : Bool} {l l' : List α} (h : Reorder b l l') (r : List α) :
    Reorder b (l ++ r) (l' ++ r) :=
  ⟨h.perm.append_right r, fun hb => by rw [h.eq hb]⟩

theorem Reorder.filterMap {α γ : Type} {b : Bool} {l l' : List α} (h : Reorder b l l') (f : α → Option γ) :
    Reorder b (l.filterMap f) (l'.filterMap f) :=
  ⟨h.perm.filterMap f, fun hb => by rw [h.eq hb]⟩

theorem push_reorder (q : PriorityQueue β) (m : EngineMessage β) :
    Reorder q.enableSchedule (q.queue ++ [m]) (q.push m).queue :=
  ⟨(push_perm q m).symm, fun hoff => by simp [push, hoff]⟩

theorem waitAndPop_reorder {q q' : PriorityQueue β} {m : EngineMessage β}
    (h : q.waitAndPop = some (m, q')) : Reorder q.enableSchedule q.queue (m :: q'.queue) := by
  refine ⟨(waitAndPop_perm h).1, fun hoff => ?_⟩
  unfold waitAndPop at h
  rw [if_neg (by simp [hoff])] at h
  split at h
  · cases h
  · rename_i hq; cases h; exact hq

/-- The caller waits exactly while the queue is empty. -/
theorem waitAndPop_none {q : PriorityQueue β} : q.waitAndPop = none ↔ q.queue = [] := by
  unfold waitAndPop
  split
  · rw [Option.map_eq_none_iff]
    cases q.queue with
    | nil => simp [Heap.popHeap]
    | cons m rest => simp only [Heap.popHeap]; split <;> simp
  · split <;> simp [*]

@[simp] theorem push_enableSchedule (q : PriorityQueue β) (m : EngineMessage β) :
    (q.push m).enableSchedule = q.enableSchedule := by
  unfold push; split <;> rfl

@[simp] theorem clearCounter_queue (q : PriorityQueue β) (key : Nat) : (q.clearCounter key).queue = q.queue := by
  unfold clearCounter; split <;> rfl

@[simp] theorem clearCounter_enableSchedule (q : PriorityQueue β) (key : Nat) :
    (q.clearCounter key).enableSchedule = q.enableSchedule := by
  unfold clearCounter; split <;> rfl

/-! ## Runs -/

/-- A queue with the log of what was pushed and popped. -/
structure Logged (β : Type) where
  q : PriorityQueue β
  pushed : List (EngineMessage β)
  popped : List (EngineMessage β)

inductive Act (β : Type)
  | push (m : EngineMessage β)
  | pop
  | clear (key : Nat)

def step (s : Logged β) : Act β → Option (Logged β)
  | .push m => some { s with q := s.q.push m, pushed := s.pushed ++ [m] }
  | .pop => s.q.waitAndPop.map fun (m, q) => { s with q := q, popped := s.popped ++ [m] }
  | .clear key => some { s with q := s.q.clearCounter key }

def calls (β : Type) (enableSchedule : Bool) : LTS (Logged β) (Act β) :=
  .ofFn (· = ⟨empty enableSchedule, [], []⟩) step

/-- The messages of one key. -/
abbrev ofKey (k : Nat) (ms : List (EngineMessage β)) : List (EngineMessage β) := ms.filter (·.key = k)

/-- Messages of a key are popped in the order in which they were pushed. -/
def Fifo (s : Logged β) : Prop := ∀ k, ofKey k s.popped <+: ofKey k s.pushed

/-- With `n` as the counter of `key`, the messages in the queue compare as before. -/
def KeepsOrder (q : PriorityQueue β) (key n : Nat) : Prop :=
  ∀ a ∈ q.queue, ∀ b ∈ q.queue,
    comparePriority (Function.update q.pushCnt key n) a b = comparePriority q.pushCnt a b

instance (q : PriorityQueue β) (key n : Nat) : Decidable (KeepsOrder q key n) :=
  inferInstanceAs (Decidable (∀ a ∈ q.queue, ∀ b ∈ q.queue, _ = _))

/-- What the calls on a scheduled queue have to keep to: a new message has a new id, and a counter
that changes leaves the order of the messages in the queue alone. -/
def Sound (s : Logged β) (a : Act β) (_ : Logged β) : Prop :=
  s.q.enableSchedule = false ∨ match a with
    | .push m => (∀ m' ∈ s.pushed, m'.id < m.id) ∧ KeepsOrder s.q m.key (s.q.pushCnt m.key + 1)
    | .pop => True
    | .clear key => KeepsOrder s.q key 0

/-! ### Which message is popped -/

theorem comparePriority_strictWeak (cnt : Nat → Nat) : Heap.StrictWeak (comparePriority (β := β) cnt) where
  asymm := by
    intro a b h
    unfold comparePriority at *
    split at h <;> split <;> simp only [decide_eq_true_eq, decide_eq_false_iff_not] at * <;> omega
  neg_trans := by
    intro a b c h1 h2
    unfold comparePriority at *
    split at h1 <;> split at h2 <;> split <;> simp only [decide_eq_false_iff_not] at * <;> omega

/-- From a heap, the popped message is the oldest of its key. -/
theorem waitAndPop_oldest {q q' : PriorityQueue β} {m : EngineMessage β} (hs : q.enableSchedule = true)
    (hh : Heap.IsHeap (comparePriority q.pushCnt) q.queue) (h : q.waitAndPop = some (m, q')) :
    ∀ m' ∈ q.queue, m'.key = m.key → m.id ≤ m'.id := by
  intro m' hm' hk
  unfold waitAndPop at h
  rw [if_pos hs, Option.map_eq_some_iff] at h
  obtain ⟨⟨m0, rest⟩, hp, h⟩ := h
  cases h
  have hlt := comparePriority_strictWeak (β := β) q.pushCnt
  have htop := hh.top _ (Heap.popHeap_perm _ hp).1 hlt.irrefl (fun _ _ _ => hlt.neg_trans) hm'
  simpa [comparePriority, hk] using htop

/-! ### The vector stays a heap -/

/-- With scheduling: the vector is a heap for the counters of this moment. -/
def Heaped (q : PriorityQueue β) : Prop :=
  q.enableSchedule = true → Heap.IsHeap (comparePriority q.pushCnt) q.queue

theorem Heaped.push {q : PriorityQueue β} (h : Heaped q) {m : EngineMessage β}
    (hm : q.enableSchedule = true → KeepsOrder q m.key (q.pushCnt m.key + 1)) : Heaped (q.push m) := by
  intro hon
  rw [push_enableSchedule] at hon
  rw [PriorityQueue.push, if_pos hon]
  exact Heap.pushHeap_isHeap (comparePriority_strictWeak _) ((h hon).congr _ (hm hon)) m

theorem Heaped.clearCounter {q : PriorityQueue β} (h : Heaped q) {key : Nat}
    (hk : q.enableSchedule = true → KeepsOrder q key 0) : Heaped (q.clearCounter key) := by
  intro hon
  rw [clearCounter_enableSchedule] at hon
  rw [PriorityQueue.clearCounter, if_pos hon]
  exact (h hon).congr _ (hk hon)

theorem Heaped.pop {q q' : PriorityQueue β} (h : Heaped q) {m : EngineMessage β}
    (hp : q.waitAndPop = some (m, q')) : Heaped q' := by
  intro hon
  have hon' := (waitAndPop_perm hp).2.symm.trans hon
  unfold waitAndPop at hp
  rw [if_pos hon', Option.map_eq_some_iff] at hp
  obtain ⟨⟨m0, rest⟩, hpop, hp⟩ := hp
  cases hp
  exact Heap.popHeap_isHeap (comparePriority_strictWeak _) (h hon') hpop

/-! ### The invariant -/

/-- What was pushed and not popped yet is in the queue: in the order of the pushes without
scheduling, key by key with it. -/
structure Inv (s : Logged β) : Prop where
  heap : Heaped s.q
  off : s.q.enableSchedule = false → s.pushed = s.popped ++ s.q.queue
  ids : s.q.enableSchedule = true → s.pushed.Pairwise fun a b => a.id < b.id
  rest : s.q.enableSchedule = true → ∀ k, ∃ rest,
    ofKey k s.pushed = ofKey k s.popped ++ rest ∧ rest.Perm (ofKey k s.q.queue)

theorem inv_init (enableSchedule : Bool) : Inv (⟨empty enableSchedule, [], []⟩ : Logged β) where
  heap := fun _ i hi => absurd hi (by simp [empty])
  off := fun _ => rfl
  ids := fun _ => .nil
  rest := fun _ _ => ⟨[], rfl, .refl _⟩

theorem Inv.fifo {s : Logged β} (h : Inv s) : Fifo s := by
  intro k
  by_cases hoff : s.q.enableSchedule = false
  · rw [h.off hoff, ofKey, ofKey, List.filter_append]
    exact List.prefix_append _ _
  · obtain ⟨rest, hr, -⟩ := h.rest (by simpa using hoff) k
    exact ⟨rest, hr.symm⟩

theorem Inv.push {s : Logged β} (h : Inv s) {m : EngineMessage β}
    (hm : s.q.enableSchedule = false ∨ (∀ m' ∈ s.pushed, m'.id < m.id) ∧ KeepsOrder s.q m.key (s.q.pushCnt m.key + 1)) :
    Inv { s with q := s.q.push m, pushed := s.pushed ++ [m] } where
  heap := h.heap.push fun hon => (hm.resolve_left (by simp [hon])).2
  off := fun hoff => by
    simp only [push_enableSchedule] at hoff
    rw [h.off hoff]; simp [PriorityQueue.push, hoff]
  ids := fun hon => by
    simp only [push_enableSchedule] at hon
    have hm := (hm.resolve_left (by simp [hon])).1
    rw [List.pairwise_append]
    exact ⟨h.ids hon, List.pairwise_singleton _ _, fun a ha b hb => List.mem_singleton.mp hb ▸ hm a ha⟩
  rest := fun hon k => by
    simp only [push_enableSchedule] at hon
    obtain ⟨rest, hr, hp⟩ := h.rest hon k
    refine ⟨rest ++ ofKey k [m], ?_, ?_⟩
    · simp only [ofKey, List.filter_append] at hr ⊢
      rw [hr, List.append_assoc]
    · refine (hp.append_right _).trans ?_
      rw [ofKey, ofKey, ← List.filter_append]
      exact ((push_perm s.q m).filter _).symm

theorem Inv.popOff {s : Logged β} (h : Inv s) {m : EngineMessage β} {q : PriorityQueue β}
    (hp : s.q.waitAndPop = some (m, q)) (hoff : s.q.enableSchedule = false) :
    Inv { s with q := q, popped := s.popped ++ [m] } := by
  have hq := (waitAndPop_reorder hp).eq hoff
  have hen := (waitAndPop_perm hp).2.trans hoff
  refine ⟨h.heap.pop hp, fun _ => ?_, fun hon => ?_, fun hon => ?_⟩
  · simp [h.off hoff, hq]
  · simp [hen] at hon
  · simp [hen] at hon

/-- With scheduling: a message that is not younger than any other of its key is the next of its
key to come. -/
theorem Inv.popOn {s : Logged β} (h : Inv s) {m : EngineMessage β} {q : PriorityQueue β}
    (hp : s.q.waitAndPop = some (m, q)) (hon : s.q.enableSchedule = true)
    (hold : ∀ m' ∈ s.q.queue, m'.key = m.key → m.id ≤ m'.id) :
    Inv { s with q := q, popped := s.popped ++ [m] } where
  heap := h.heap.pop hp
  off := fun hoff => by simp [(waitAndPop_perm hp).2, hon] at hoff
  ids := fun _ => h.ids hon
  rest := fun _ k => by
    obtain ⟨rest, hr, hperm⟩ := h.rest hon k
    have hq := ((waitAndPop_perm hp).1.filter (·.key = k))
    by_cases hk : m.key = k
    · -- the rest of the key is in id order, so the oldest one is its head
      have hsorted : rest.Pairwise fun a b => a.id < b.id := by
        have := ((h.ids hon).filter (·.key = k))
        rw [show s.pushed.filter (·.key = k) = _ from hr, List.pairwise_append] at this
        exact this.2.1
      have hq : (ofKey k s.q.queue).Perm (m :: ofKey k q.queue) := by simpa [ofKey, hk] using hq
      cases rest with
      | nil => exact absurd (hperm.trans hq) (by simp)
      | cons m0 rest =>
        have hm : m ∈ m0 :: rest := (hperm.trans hq).mem_iff.mpr (by simp)
        have hm0 : m0 ∈ s.q.queue ∧ m0.key = k := by
          simpa [ofKey] using hperm.mem_iff.mp (show m0 ∈ m0 :: rest by simp)
        have hle := hold m0 hm0.1 (hm0.2.trans hk.symm)
        have heq : m0 = m := by
          rcases List.mem_cons.mp hm with he | he
          · exact he.symm
          · have := (List.pairwise_cons.mp hsorted).1 m he; omega
        subst heq
        refine ⟨rest, ?_, (hperm.trans hq).cons_inv⟩
        simp only [ofKey, List.filter_append] at hr ⊢
        rw [hr]; simp [hk]
    · refine ⟨rest, ?_, hperm.trans (by simpa [ofKey, hk] using hq)⟩
      simp only [ofKey, List.filter_append] at hr ⊢
      rw [hr]; simp [hk]

theorem inv_step {s s' : Logged β} {a : Act β} (h : Inv s) (hs : step s a = some s')
    (hg : Sound s a s') : Inv s' := by
  cases a with
  | push m => cases hs; exact h.push hg
  | pop =>
    simp only [step, Option.map_eq_some_iff] at hs
    obtain ⟨⟨m, q⟩, hp, rfl⟩ := hs
    by_cases hoff : s.q.enableSchedule = false
    · exact h.popOff hp hoff
    · have hon : s.q.enableSchedule = true := by simpa using hoff
      exact h.popOn hp hon (waitAndPop_oldest hon (h.heap hon) hp)
  | clear key =>
    cases hs
    refine ⟨h.heap.clearCounter fun hon => hg.resolve_left (by simp [hon]), fun hoff => ?_,
      fun hon => h.ids (by simpa using hon), fun hon k => ?_⟩
    · rw [clearCounter_queue]; exact h.off (by simpa using hoff)
    · rw [clearCounter_queue]; exact h.rest (by simpa using hon) k

theorem inv_inductive (enableSchedule : Bool) :
    ((calls β enableSchedule).restrict Sound).Inductive Inv where
  init := by rintro s rfl; exact inv_init enableSchedule
  step := fun _ _ _ h hs => inv_step h hs.1 hs.2

/-- **Order per key.** In every run without scheduling, and in every run with scheduling whose
message ids grow and whose calls keep the order of the messages in the queue. -/
theorem fifo_per_key (enableSchedule : Bool) (s : Logged β)
    (h : ((calls β enableSchedule).restrict Sound).Reachable s) : Fifo s :=
  ((inv_inductive enableSchedule).reachable s h).fifo

/-! ### Two runs -/

def message (id key : Nat) : EngineMessage Unit := ⟨id, key, ()⟩

instance (s : Logged β) (a : Act β) (s' : Logged β) : Decidable (Sound s a s') :=
  match a with
  | .push m => inferInstanceAs (Decidable (_ ∨ (∀ m' ∈ s.pushed, m'.id < m.id) ∧ _))
  | .pop => inferInstanceAs (Decidable (_ ∨ True))
  | .clear key => inferInstanceAs (Decidable (_ ∨ KeepsOrder s.q key 0))

/-- With scheduling: the key that was pushed less often comes first, and the three messages of the
other key in their order, the last of which moved the counter while they waited. -/
theorem fifo_two_keys : ∃ s, ((calls Unit true).restrict Sound).Reachable s ∧
    s.popped.map EngineMessage.id = [2, 0, 1, 3] ∧ Fifo s := by
  have hex : ∃ s, LTS.execute (LTS.guarded step Sound) (⟨empty true, [], []⟩ : Logged Unit)
      [.push (message 0 0), .push (message 1 0), .push (message 2 1), .push (message 3 0), .pop, .pop, .pop,
        .pop] = some s ∧ s.popped.map EngineMessage.id = [2, 0, 1, 3] := ⟨_, rfl, rfl⟩
  obtain ⟨s, hs, hpop⟩ := hex
  have hr := LTS.Reachable.of_execute (.init (M := (calls Unit true).restrict Sound) rfl) hs
  exact ⟨s, hr, hpop, fifo_per_key true s hr⟩

/-- Keys 3, 0, 0, 1, 1 are pushed in this order, then two messages are popped: the younger
message of key 0 comes out and the older one is still in the queue. -/
theorem fifo_counterexample : ∃ s, (calls Unit true).Reachable s ∧
    ofKey 0 s.pushed = [message 1 0, message 2 0] ∧ ofKey 0 s.popped = [message 2 0] ∧ ¬ Fifo s := by
  have hex : ∃ s, LTS.execute (LTS.guarded step fun _ _ _ => True) (⟨empty true, [], []⟩ : Logged Unit)
      [.push (message 0 3), .push (message 1 0), .push (message 2 0), .push (message 3 1),
        .push (message 4 1), .pop, .pop] = some s ∧
      ofKey 0 s.pushed = [message 1 0, message 2 0] ∧ ofKey 0 s.popped = [message 2 0] := ⟨_, rfl, rfl, rfl⟩
  obtain ⟨s, hs, h1, h2⟩ := hex
  have hr := LTS.Reachable.of_execute (.init (M := (calls Unit true).restrict fun _ _ _ => True) rfl) hs
  refine ⟨s, hr.of_restrict, h1, h2, fun h => ?_⟩
  obtain ⟨t, ht⟩ := h 0
  rw [h1, h2] at ht
  simp [message] at ht

end PriorityQueue
end Inca.L2
