import Mathlib.Data.List.Perm.Basic
import Mathlib.Data.List.Nodup
import Inca.Core.LTS

/-!
# Acknowledged messages (`resender.h`)

With `PS_RESEND` every message that `Van::Send` has put on the wire is then
buffered under a key (`AddOutgoing`) until an acknowledgement with that key
arrives; the monitor thread sends it again after a while, and aborts after
`max_num_retry` times. A receiver acknowledges everything and drops what has
a key that it has seen (`AddIncomming`). The wire loses messages and delivers
them in any order; an acknowledgement may be there before the message is
buffered. A node whose `CHECK` fails ends, and the others go on.

The key (`GetKey`) is made of 16 bits of the app id, 8 bits of sender and
receiver, the timestamp and the request flag, but not of the customer.

* `exactly_once`: if the keys of all messages differ, then every message is
  handled once at most, only by its receiver, and as long as it is not, its
  sender has it; when no sender has any, all have been handled.
* `one_per_key`: whatever the keys, the messages that a node handles have
  different keys; and no message with the timestamp `kEmpty = 32767` is ever
  handled: its sender aborts in `AddOutgoing`, and a node that receives it in
  `GetKey`.
* `getKey_eq_iff`: which messages share a key.
-/
namespace Inca.L3.Resender

/-! ## The code -/

abbrev Id := BitVec 32

/-- `std::numeric_limits<short>::max()`.
mirrors byteps/3rdparty/ps-lite/src/customer.cc:17-18 -/
def kEmpty : BitVec 32 := 32767#32

/-- The fields of a message that the resender reads; the rest is `body`. -/
structure Msg (P : Type) where
  appId : BitVec 32
  timestamp : BitVec 32
  request : Bool
  sender : Id
  recver : Id
  body : P
  deriving DecidableEq

section Code
variable {P : Type}

/-- `timestamp << 1` is an `int`, extended with its sign.
mirrors byteps/3rdparty/ps-lite/src/resender.h:96-106 -/
def getKey (m : Msg P) : BitVec 64 :=
  (m.appId.setWidth 16).setWidth 64 <<< 48 ||| (m.sender.setWidth 8).setWidth 64 <<< 40 |||
    (m.recver.setWidth 8).setWidth 64 <<< 32 ||| (m.timestamp <<< 1).signExtend 64 |||
    if m.request then 1#64 else 0#64

structure Node (P : Type) where
  /-- `send_buff_`, with `num_retry` -/
  sendBuff : BitVec 64 → Option (Msg P × Nat)
  acked : List (BitVec 64)
  /-- sent by a thread that has not called `AddOutgoing` yet -/
  hand : List (Msg P)
  /-- handed on to `Van::Receiving` -/
  handled : List (Msg P)
  /-- a `CHECK` has failed -/
  failed : Bool

inductive Pkt (P : Type)
  | data (m : Msg P)
  | ack (dst : Id) (key : BitVec 64)

def Pkt.dst : Pkt P → Id
  | .data m => m.recver
  | .ack dst _ => dst

structure State (P : Type) where
  node : Id → Node P
  wire : List (Pkt P)
  /-- every message given to `Van::Send` by the application -/
  submitted : List (Msg P)

def State.init (P : Type) : State P where
  node _ := ⟨fun _ => none, [], [], [], false⟩
  wire := []
  submitted := []

inductive Act (P : Type)
  | submit (m : Msg P)
  | addOutgoing (id : Id) (i : Nat)
  | resend (id : Id) (key : BitVec 64)
  | deliver (i : Nat)
  | lose (i : Nat)

/-- The node that does it. -/
def Act.actor (S : State P) : Act P → Option Id
  | .submit m => some m.sender
  | .addOutgoing id _ => some id
  | .resend id _ => some id
  | .deliver i => S.wire[i]?.map Pkt.dst
  | .lose _ => none

def State.setNode (S : State P) (id : Id) (v : Node P) : State P :=
  { S with node := fun w => if w = id then v else S.node w }

def State.fail (S : State P) (id : Id) : State P := S.setNode id { S.node id with failed := true }

/-- `SendMsg`; the thread goes on to `AddOutgoing`. -/
def State.sendMsg (S : State P) (m : Msg P) : State P :=
  { S.setNode m.sender { S.node m.sender with hand := (S.node m.sender).hand ++ [m] } with
    wire := S.wire ++ [.data m] }

/-- mirrors byteps/3rdparty/ps-lite/src/resender.h:36-50 -/
def addOutgoing (S : State P) (id : Id) (i : Nat) : Option (State P) := do
  let m ← (S.node id).hand[i]?
  let v := { S.node id with hand := (S.node id).hand.eraseIdx i }
  if m.timestamp = kEmpty then some (S.fail id)
  else if (v.sendBuff (getKey m)).isSome then some (S.setNode id v)
  else some (S.setNode id { v with
    sendBuff := fun k => if k = getKey m then some (m, 0) else v.sendBuff k })

/-- One overdue entry of the monitor thread.
mirrors byteps/3rdparty/ps-lite/src/resender.h:113-136 -/
def resend (maxNumRetry : Nat) (S : State P) (id : Id) (key : BitVec 64) : Option (State P) := do
  let (m, numRetry) ← (S.node id).sendBuff key
  if numRetry + 1 < maxNumRetry then
    let S := S.setNode id { S.node id with
      sendBuff := fun k => if k = key then some (m, numRetry + 1) else (S.node id).sendBuff k }
    some (S.sendMsg m)
  else some (S.fail id)

/-- A message arrives: `AddIncomming`.
mirrors byteps/3rdparty/ps-lite/src/resender.h:56-84 -/
def deliver (S : State P) (i : Nat) : Option (State P) := do
  let p ← S.wire[i]?
  let S := { S with wire := S.wire.eraseIdx i }
  match p with
  | .ack dst key =>
    some (S.setNode dst { S.node dst with
      sendBuff := fun k => if k = key then none else (S.node dst).sendBuff k })
  | .data m =>
    if m.timestamp = kEmpty then some (S.fail m.recver)
    else
      let v := S.node m.recver
      let S := { S with wire := S.wire ++ [.ack m.sender (getKey m)] }
      if getKey m ∈ v.acked then some S
      else some (S.setNode m.recver { v with acked := getKey m :: v.acked, handled := v.handled ++ [m] })

def effect (maxNumRetry : Nat) (S : State P) : Act P → Option (State P)
  | .submit m => some { S.sendMsg m with submitted := S.submitted ++ [m] }
  | .addOutgoing id i => addOutgoing S id i
  | .resend id key => resend maxNumRetry S id key
  | .deliver i => deliver S i
  | .lose i => some { S with wire := S.wire.eraseIdx i }

def step (maxNumRetry : Nat) (S : State P) (a : Act P) : Option (State P) :=
  if (a.actor S).any fun id => (S.node id).failed then none else effect maxNumRetry S a

def machine (P : Type) (maxNumRetry : Nat) : LTS (State P) (Act P) := .ofFn (· = State.init P) (step maxNumRetry)

/-- Every message gets a key of its own. -/
def Fresh (S : State P) (a : Act P) (_ : State P) : Prop :=
  match a with
  | .submit m => ∀ m' ∈ S.submitted, getKey m' ≠ getKey m
  | _ => True

end Code

/-! ## Single steps -/

section Fields
variable {P : Type} (S : State P) (m : Msg P) (id w : Id) (v : Node P)

@[simp] theorem setNode_node : (S.setNode id v).node w = if w = id then v else S.node w := rfl

section Keep
variable (buff : BitVec 64 → Option (Msg P × Nat)) (acked : List (BitVec 64)) (hand handled : List (Msg P)) (failed : Bool)

theorem setNode_sendBuff :
    ((S.setNode id ⟨(S.node id).sendBuff, acked, hand, handled, failed⟩).node w).sendBuff = (S.node w).sendBuff := by
  rw [setNode_node]; split <;> simp_all

theorem setNode_acked :
    ((S.setNode id ⟨buff, (S.node id).acked, hand, handled, failed⟩).node w).acked = (S.node w).acked := by
  rw [setNode_node]; split <;> simp_all

theorem setNode_hand :
    ((S.setNode id ⟨buff, acked, (S.node id).hand, handled, failed⟩).node w).hand = (S.node w).hand := by
  rw [setNode_node]; split <;> simp_all

theorem setNode_handled :
    ((S.setNode id ⟨buff, acked, hand, (S.node id).handled, failed⟩).node w).handled = (S.node w).handled := by
  rw [setNode_node]; split <;> simp_all

end Keep

@[simp] theorem fail_submitted : (S.fail id).submitted = S.submitted := rfl
@[simp] theorem fail_sendBuff : ((S.fail id).node w).sendBuff = (S.node w).sendBuff := setNode_sendBuff S id w _ _ _ _
@[simp] theorem fail_acked : ((S.fail id).node w).acked = (S.node w).acked := setNode_acked S id w _ _ _ _
@[simp] theorem fail_hand : ((S.fail id).node w).hand = (S.node w).hand := setNode_hand S id w _ _ _ _
@[simp] theorem fail_handled : ((S.fail id).node w).handled = (S.node w).handled := setNode_handled S id w _ _ _ _
@[simp] theorem fail_failed : ((S.fail id).node id).failed = true := by simp [State.fail]

@[simp] theorem sendMsg_sendBuff : ((S.sendMsg m).node w).sendBuff = (S.node w).sendBuff := by
  simp only [State.sendMsg, setNode_node]; split <;> simp_all

@[simp] theorem sendMsg_acked : ((S.sendMsg m).node w).acked = (S.node w).acked := by
  simp only [State.sendMsg, setNode_node]; split <;> simp_all

@[simp] theorem sendMsg_handled : ((S.sendMsg m).node w).handled = (S.node w).handled := by
  simp only [State.sendMsg, setNode_node]; split <;> simp_all

theorem sendMsg_hand : ((S.sendMsg m).node w).hand = (S.node w).hand ++ if w = m.sender then [m] else [] := by
  simp only [State.sendMsg, setNode_node]; split <;> simp_all

end Fields

section Steps
variable {P : Type} {S S' : State P}

theorem mem_eraseIdx_of_ne {α : Type} {l : List α} {i : Nat} {a b : α} (hi : l[i]? = some a) (hb : b ∈ l) (hne : b ≠ a) :
    b ∈ l.eraseIdx i := by
  obtain ⟨hlt, rfl⟩ := List.getElem?_eq_some_iff.mp hi
  exact (List.mem_cons.mp ((List.getElem_cons_eraseIdx_perm hlt).mem_iff.mpr hb)).resolve_left hne

/-- `AddOutgoing` aborts, or moves a message from the thread to the buffer, where it may be already. -/
theorem addOutgoing_cases {id : Id} {i : Nat} (h : addOutgoing S id i = some S') : ∃ m, (S.node id).hand[i]? = some m ∧
    (m.timestamp = kEmpty ∧ S' = S.fail id ∨
    m.timestamp ≠ kEmpty ∧ ∃ buff, S' = S.setNode id ⟨buff, (S.node id).acked, (S.node id).hand.eraseIdx i,
        (S.node id).handled, (S.node id).failed⟩ ∧ (buff (getKey m)).isSome ∧
      ∀ k, buff k = (S.node id).sendBuff k ∨ k = getKey m ∧ (S.node id).sendBuff k = none ∧ buff k = some (m, 0)) := by
  simp only [addOutgoing, Option.bind_eq_bind, Option.bind_eq_some_iff] at h
  obtain ⟨m, hm, h⟩ := h
  refine ⟨m, hm, ?_⟩
  split at h
  · next he => cases h; exact .inl ⟨he, rfl⟩
  · next he =>
    refine .inr ⟨he, ?_⟩
    split at h
    · next hs => cases h; exact ⟨_, rfl, hs, fun k => .inl rfl⟩
    · next hs =>
      cases h
      refine ⟨_, rfl, by simp, fun k => ?_⟩
      by_cases hk : k = getKey m
      · exact .inr ⟨hk, by rw [hk]; simpa using hs, if_pos hk⟩
      · exact .inl (if_neg hk)

/-- The monitor aborts, or counts one more try and sends. -/
theorem resend_cases {maxNumRetry : Nat} {id : Id} {key : BitVec 64} (h : resend maxNumRetry S id key = some S') :
    ∃ m r, (S.node id).sendBuff key = some (m, r) ∧ (S' = S.fail id ∨ ∃ buff,
      S' = (S.setNode id ⟨buff, (S.node id).acked, (S.node id).hand, (S.node id).handled, (S.node id).failed⟩).sendMsg m ∧
      ∀ k, buff k = (S.node id).sendBuff k ∨ k = key ∧ buff k = some (m, r + 1)) := by
  simp only [resend, Option.bind_eq_bind, Option.bind_eq_some_iff] at h
  obtain ⟨⟨m, r⟩, hm, h⟩ := h
  refine ⟨m, r, hm, ?_⟩
  dsimp only at h
  split at h
  · cases h
    refine .inr ⟨_, rfl, fun k => ?_⟩
    by_cases hk : k = key
    · exact .inr ⟨hk, if_pos hk⟩
    · exact .inl (if_neg hk)
  · cases h; exact .inl rfl

theorem deliver_cases {i : Nat} (h : deliver S i = some S') : ∃ p, S.wire[i]? = some p ∧
    ((∃ dst key, p = .ack dst key ∧ S' = { S.setNode dst ⟨fun k => if k = key then none else (S.node dst).sendBuff k,
        (S.node dst).acked, (S.node dst).hand, (S.node dst).handled, (S.node dst).failed⟩ with
          wire := S.wire.eraseIdx i }) ∨
    (∃ m, p = .data m ∧ m.timestamp = kEmpty ∧ S' = { S.fail m.recver with wire := S.wire.eraseIdx i }) ∨
    ∃ m, p = .data m ∧ m.timestamp ≠ kEmpty ∧
      (getKey m ∈ (S.node m.recver).acked ∧
        S' = { S with wire := S.wire.eraseIdx i ++ [.ack m.sender (getKey m)] } ∨
      getKey m ∉ (S.node m.recver).acked ∧
        S' = { S.setNode m.recver ⟨(S.node m.recver).sendBuff, getKey m :: (S.node m.recver).acked,
          (S.node m.recver).hand, (S.node m.recver).handled ++ [m], (S.node m.recver).failed⟩ with
            wire := S.wire.eraseIdx i ++ [.ack m.sender (getKey m)] })) := by
  simp only [deliver, Option.bind_eq_bind, Option.bind_eq_some_iff] at h
  obtain ⟨p, hp, h⟩ := h
  refine ⟨p, hp, ?_⟩
  cases p with
  | ack dst key => cases h; exact .inl ⟨dst, key, rfl, rfl⟩
  | data m =>
    dsimp only at h
    split at h
    · next he => cases h; exact .inr (.inl ⟨m, rfl, he, rfl⟩)
    · next he =>
      refine .inr (.inr ⟨m, rfl, he, ?_⟩)
      split at h
      · next hk => cases h; exact .inl ⟨hk, rfl⟩
      · next hk => cases h; exact .inr ⟨hk, rfl⟩

end Steps

/-! ## One message per key -/

section Keys
variable {P : Type} {S S' : State P} {maxNumRetry : Nat}

/-- What holds for any keys. -/
structure Once (S : State P) : Prop where
  nodup : ∀ r, ((S.node r).handled.map getKey).Nodup
  acked : ∀ r k, k ∈ (S.node r).acked ↔ k ∈ (S.node r).handled.map getKey
  empty : ∀ r, ∀ m ∈ (S.node r).handled, m.timestamp ≠ kEmpty
  held : ∀ m ∈ S.submitted, m.timestamp = kEmpty → m ∈ (S.node m.sender).hand

theorem Once.init : Once (State.init P) where
  nodup _ := List.nodup_nil
  acked _ _ := by simp [State.init]
  empty _ _ h := by cases h
  held _ h := by cases h

/-- A step in which nothing is handled. -/
theorem Once.frame (h : Once S) (hacked : ∀ r, (S'.node r).acked = (S.node r).acked)
    (hhandled : ∀ r, (S'.node r).handled = (S.node r).handled)
    (hheld : ∀ m ∈ S'.submitted, m.timestamp = kEmpty → m ∈ (S'.node m.sender).hand) : Once S' where
  nodup r := by rw [hhandled]; exact h.nodup r
  acked r k := by rw [hacked, hhandled]; exact h.acked r k
  empty r := by rw [hhandled]; exact h.empty r
  held := hheld

theorem effect_of_step {a : Act P} (h : step maxNumRetry S a = some S') : effect maxNumRetry S a = some S' := by
  unfold step at h
  split at h
  · cases h
  · exact h

theorem once_inductive (P : Type) (maxNumRetry : Nat) : (machine P maxNumRetry).Inductive Once where
  init := fun S hS => by rw [show S = State.init P from hS]; exact Once.init
  step := fun S a S' h hst => by
    have hheld := h.held
    replace hst := effect_of_step hst
    cases a with
    | submit m =>
      cases hst
      refine h.frame (fun r => sendMsg_acked S m r) (fun r => sendMsg_handled S m r) fun m' hm' he => ?_
      show m' ∈ ((S.sendMsg m).node m'.sender).hand
      rw [sendMsg_hand]
      rcases List.mem_append.mp hm' with hm' | hm'
      · exact List.mem_append_left _ (hheld m' hm' he)
      · rw [List.mem_singleton.mp hm']; simp
    | addOutgoing id i =>
      obtain ⟨m, hm, ⟨-, rfl⟩ | ⟨hts, buff, rfl, -, -⟩⟩ := addOutgoing_cases hst
      · exact h.frame (fun r => fail_acked S id r) (fun r => fail_handled S id r) (by simpa using hheld)
      · refine h.frame (fun r => setNode_acked S _ r _ _ _ _) (fun r => setNode_handled S _ r _ _ _ _)
          fun m' hm' he => ?_
        rw [setNode_node]
        split
        · next hr =>
          refine mem_eraseIdx_of_ne hm (hr ▸ hheld m' hm' he) ?_
          rintro rfl
          exact hts he
        · exact hheld m' hm' he
    | resend id key =>
      obtain ⟨m, r, -, rfl | ⟨buff, rfl, -⟩⟩ := resend_cases hst
      · exact h.frame (fun r => fail_acked S id r) (fun r => fail_handled S id r) (by simpa using hheld)
      · refine h.frame (fun r => ?_) (fun r => ?_) fun m' hm' he => ?_
        · rw [sendMsg_acked, setNode_acked]
        · rw [sendMsg_handled, setNode_handled]
        · rw [sendMsg_hand, setNode_hand]
          exact List.mem_append_left _ (hheld m' hm' he)
    | deliver i =>
      obtain ⟨p, -, ⟨dst, key, -, rfl⟩ | ⟨m, -, -, rfl⟩ | ⟨m, -, hts, ⟨-, rfl⟩ | ⟨hk, rfl⟩⟩⟩ := deliver_cases hst
      · refine h.frame (fun r => setNode_acked S _ r _ _ _ _) (fun r => setNode_handled S _ r _ _ _ _)
          fun m' hm' he => ?_
        rw [setNode_hand]
        exact hheld m' hm' he
      · exact h.frame (fun r => fail_acked S _ r) (fun r => fail_handled S _ r) (by simpa using hheld)
      · exact h.frame (fun _ => rfl) (fun _ => rfl) hheld
      · have hkey : getKey m ∉ (S.node m.recver).handled.map getKey := fun hmem => hk ((h.acked _ _).mpr hmem)
        refine ⟨fun r => ?_, fun r k => ?_, fun r m' hm' => ?_, fun m' hm' he => ?_⟩
        · rw [setNode_node]
          split
          · next hr =>
            rw [List.map_append, List.map_singleton]
            exact List.nodup_append.mpr ⟨h.nodup m.recver, List.nodup_singleton _, fun a ha b hb => by
              rw [List.mem_singleton.mp hb]; rintro rfl; exact hkey ha⟩
          · exact h.nodup r
        · rw [setNode_node]
          split
          · simp only [List.mem_cons, List.map_append, List.mem_append, List.map_cons, List.map_nil, List.not_mem_nil,
              or_false]
            rw [h.acked m.recver k, or_comm]
          · exact h.acked r k
        · rw [setNode_node] at hm'
          split at hm'
          · rcases List.mem_append.mp hm' with hm' | hm'
            · exact h.empty _ m' hm'
            · rw [List.mem_singleton.mp hm']; exact hts
          · exact h.empty r m' hm'
        · rw [setNode_hand]
          exact hheld m' hm' he
    | lose i =>
      cases hst
      exact h.frame (fun _ => rfl) (fun _ => rfl) hheld

/-- **A node handles one message per key**, whatever is sent. And no message with the timestamp 32767
is handled, which `AddOutgoing` and `GetKey` take for "no timestamp": it stays with the thread that
sends it, and when the thread gets to `AddOutgoing` the sender aborts; so does a node that receives
it. -/
theorem one_per_key (maxNumRetry : Nat) (S : State P) (h : (machine P maxNumRetry).Reachable S) :
    (∀ r, ((S.node r).handled.map getKey).Nodup) ∧
    (∀ r, ∀ m ∈ (S.node r).handled, m.timestamp ≠ kEmpty) ∧
    (∀ m ∈ S.submitted, m.timestamp = kEmpty → m ∈ (S.node m.sender).hand) ∧
    (∀ id i m, (S.node id).hand[i]? = some m → m.timestamp = kEmpty → (S.node id).failed = false →
      ∃ S', step maxNumRetry S (.addOutgoing id i) = some S' ∧ (S'.node id).failed = true) ∧
    ∀ i m, S.wire[i]? = some (.data m) → m.timestamp = kEmpty → (S.node m.recver).failed = false →
      ∃ S', step maxNumRetry S (.deliver i) = some S' ∧ (S'.node m.recver).failed = true := by
  have hinv := (once_inductive P maxNumRetry).reachable S h
  refine ⟨hinv.nodup, hinv.empty, hinv.held, fun id i m hm he hok => ⟨S.fail id, ?_, fail_failed S id⟩,
    fun i m hm he hok => ⟨_, ?_, fail_failed { S with wire := S.wire.eraseIdx i } m.recver⟩⟩
  · simp [step, Act.actor, effect, hok, Resender.addOutgoing, hm, he]
  · simp [step, Act.actor, effect, Pkt.dst, hok, Resender.deliver, hm, he]

/-- A worker sends to one server; the body is the customer. -/
def msgTo (customer : Nat) : Msg Nat := ⟨0, 5, true, 9, 8, customer⟩

/-- The same at the timestamp 32767. -/
def lateMsg : Msg Nat := { msgTo 0 with timestamp := kEmpty }

/-- Two customers of an application share their timestamps: the second one's message is dropped. And the
worker gets as far as the timestamp 32767. -/
theorem one_per_key_two_customers : ∃ S, (machine Nat 10).Reachable S ∧ S.submitted = [msgTo 0, msgTo 1, lateMsg] ∧
    S.wire = [.ack 9 (getKey (msgTo 0)), .ack 9 (getKey (msgTo 1)), .data lateMsg] ∧ msgTo 1 ∉ (S.node 8).handled ∧
    ∃ S', step 10 S (.addOutgoing 9 2) = some S' ∧ (S'.node 9).failed = true := by
  obtain ⟨S, hS, hsub, hwire, hdone, hhand, hok⟩ : ∃ S, LTS.execute (LTS.guarded (step 10) fun _ _ _ => True)
      (State.init Nat) [.submit (msgTo 0), .submit (msgTo 1), .deliver 0, .deliver 0, .submit lateMsg] = some S ∧
      S.submitted = [msgTo 0, msgTo 1, lateMsg] ∧
      S.wire = [.ack 9 (getKey (msgTo 0)), .ack 9 (getKey (msgTo 1)), .data lateMsg] ∧
      (S.node 8).handled = [msgTo 0] ∧ (S.node 9).hand = [msgTo 0, msgTo 1, lateMsg] ∧ (S.node 9).failed = false :=
    ⟨_, rfl, rfl, rfl, rfl, rfl, rfl⟩
  have hr := (LTS.Reachable.of_execute (.init (M := (machine Nat 10).restrict fun _ _ _ => True) rfl) hS).of_restrict
  obtain ⟨hnodup, -, -, habort, -⟩ := one_per_key 10 S hr
  refine ⟨S, hr, hsub, hwire, fun h => ?_, habort 9 2 lateMsg (by rw [hhand]; rfl) rfl hok⟩
  have h0 : msgTo 0 ∈ (S.node 8).handled := by rw [hdone]; exact List.mem_cons_self
  exact absurd (List.inj_on_of_nodup_map (hnodup 8) h0 h rfl) (by decide)

end Keys

/-! ## Distinct keys -/

section Distinct
variable {P : Type} {S S' : State P} {maxNumRetry : Nat}

structure Kept (S : State P) : Prop where
  keys : ∀ m ∈ S.submitted, ∀ m' ∈ S.submitted, getKey m = getKey m' → m = m'
  nodup : S.submitted.Nodup
  wire : ∀ m, .data m ∈ S.wire → m ∈ S.submitted
  -- what is acknowledged has been handled
  acks : ∀ dst k, .ack dst k ∈ S.wire →
    ∃ m ∈ S.submitted, getKey m = k ∧ m.sender = dst ∧ m ∈ (S.node m.recver).handled
  hand : ∀ w, ∀ m ∈ (S.node w).hand, m ∈ S.submitted ∧ m.sender = w
  buff : ∀ w k m r, (S.node w).sendBuff k = some (m, r) → m ∈ S.submitted ∧ getKey m = k ∧ m.sender = w
  handled : ∀ w, ∀ m ∈ (S.node w).handled, m ∈ S.submitted ∧ m.recver = w
  safe : ∀ m ∈ S.submitted, m ∈ (S.node m.sender).hand ∨
    (∃ r, (S.node m.sender).sendBuff (getKey m) = some (m, r)) ∨ m ∈ (S.node m.recver).handled

theorem Kept.init : Kept (State.init P) where
  keys _ h := by cases h
  nodup := List.nodup_nil
  wire _ h := by cases h
  acks _ _ h := by cases h
  hand _ _ h := by cases h
  buff _ _ _ _ h := by cases h
  handled _ _ h := by cases h
  safe _ h := by cases h

theorem Kept.submit (h : Kept S) {m : Msg P} (hfresh : ∀ m' ∈ S.submitted, getKey m' ≠ getKey m) :
    Kept { S.sendMsg m with submitted := S.submitted ++ [m] } where
  keys a ha b hb hab := by
    rcases List.mem_append.mp ha with ha | ha <;> rcases List.mem_append.mp hb with hb | hb
    · exact h.keys a ha b hb hab
    · exact absurd (List.mem_singleton.mp hb ▸ hab) (hfresh a ha)
    · exact absurd (List.mem_singleton.mp ha ▸ hab.symm) (hfresh b hb)
    · rw [List.mem_singleton.mp ha, List.mem_singleton.mp hb]
  nodup := List.nodup_append.mpr ⟨h.nodup, List.nodup_singleton _, fun a ha b hb hab =>
    hfresh a ha (congrArg getKey (hab.trans (List.mem_singleton.mp hb)))⟩
  wire m' hm' := by
    rcases List.mem_append.mp hm' with hm' | hm'
    · exact List.mem_append_left _ (h.wire m' hm')
    · cases List.mem_singleton.mp hm'; exact List.mem_append_right _ List.mem_cons_self
  acks dst k hk := by
    rcases List.mem_append.mp hk with hk | hk
    · obtain ⟨m', hm', h1, h2, h3⟩ := h.acks dst k hk
      exact ⟨m', List.mem_append_left _ hm', h1, h2, by simpa using h3⟩
    · cases List.mem_singleton.mp hk
  hand w m' hm' := by
    change m' ∈ ((S.sendMsg m).node w).hand at hm'
    rw [sendMsg_hand] at hm'
    rcases List.mem_append.mp hm' with hm' | hm'
    · exact ⟨List.mem_append_left _ (h.hand w m' hm').1, (h.hand w m' hm').2⟩
    · split at hm'
      · next hw =>
        cases List.mem_singleton.mp hm'
        exact ⟨List.mem_append_right _ List.mem_cons_self, hw.symm⟩
      · cases hm'
  buff w k m' r hb := by
    change ((S.sendMsg m).node w).sendBuff k = _ at hb
    rw [sendMsg_sendBuff] at hb
    obtain ⟨h1, h2⟩ := h.buff w k m' r hb
    exact ⟨List.mem_append_left _ h1, h2⟩
  handled w m' hm' := by
    change m' ∈ ((S.sendMsg m).node w).handled at hm'
    rw [sendMsg_handled] at hm'
    exact ⟨List.mem_append_left _ (h.handled w m' hm').1, (h.handled w m' hm').2⟩
  safe m' hm' := by
    show m' ∈ ((S.sendMsg m).node m'.sender).hand ∨ (∃ r, ((S.sendMsg m).node m'.sender).sendBuff (getKey m') = some (m', r)) ∨
      m' ∈ ((S.sendMsg m).node m'.recver).handled
    rw [sendMsg_hand, sendMsg_sendBuff, sendMsg_handled]
    rcases List.mem_append.mp hm' with hm' | hm'
    · exact (h.safe m' hm').imp_left (List.mem_append_left _)
    · cases List.mem_singleton.mp hm'; exact .inl (by simp)

/-- A node that fails keeps what it has. -/
theorem Kept.fail (h : Kept S) (id : Id) {wire : List (Pkt P)} (hw : ∀ p ∈ wire, p ∈ S.wire) :
    Kept { S.fail id with wire := wire } where
  keys := h.keys
  nodup := h.nodup
  wire m hm := h.wire m (hw _ hm)
  acks dst k hk := by simpa using h.acks dst k (hw _ hk)
  hand := by simpa using h.hand
  buff := by simpa using h.buff
  handled := by simpa using h.handled
  safe := by simpa using h.safe

theorem Kept.addOutgoing (h : Kept S) {id : Id} {i : Nat}
    (hst : addOutgoing S id i = some S') : Kept S' := by
  obtain ⟨m, hm, ⟨-, rfl⟩ | ⟨-, buff, rfl, hsome, hbuff⟩⟩ := addOutgoing_cases hst
  · exact h.fail id fun _ hp => hp
  · have hmid := h.hand id m (List.mem_of_getElem? hm)
    have hnew : ∀ k m' r, buff k = some (m', r) → m' ∈ S.submitted ∧ getKey m' = k ∧ m'.sender = id := by
      intro k m' r hb
      rcases hbuff k with hk | ⟨hk, -, hk'⟩
      · exact h.buff id k m' r (hk ▸ hb)
      · rw [hk'] at hb
        cases hb
        exact ⟨hmid.1, hk.symm, hmid.2⟩
    refine { h with
      acks := fun dst k hk => ?_
      hand := fun w m' hm' => ?_
      buff := fun w k m' r hb => ?_
      handled := fun w m' hm' => ?_
      safe := fun m' hm' => ?_ }
    · obtain ⟨m', hm', h1, h2, h3⟩ := h.acks dst k hk
      exact ⟨m', hm', h1, h2, by rw [setNode_handled]; exact h3⟩
    · rw [setNode_node] at hm'
      split at hm'
      · next hr => rw [hr]; exact h.hand id m' (List.mem_of_mem_eraseIdx hm')
      · exact h.hand w m' hm'
    · rw [setNode_node] at hb
      split at hb
      · next hr => rw [hr]; exact hnew k m' r hb
      · exact h.buff w k m' r hb
    · rw [setNode_handled] at hm'
      exact h.handled w m' hm'
    · rw [setNode_handled]
      rcases h.safe m' hm' with hhand | ⟨r, hb⟩ | hhandled
      · rw [setNode_node]
        split
        · next hr =>
          by_cases hmm : m' = m
          · -- it is buffered now, or was already
            obtain ⟨⟨m₁, r⟩, hb⟩ := Option.isSome_iff_exists.mp hsome
            have h1 := hnew _ m₁ r hb
            cases h.keys m₁ h1.1 m hmid.1 h1.2.1
            exact .inr (.inl ⟨r, by rw [hmm]; exact hb⟩)
          · exact .inl (mem_eraseIdx_of_ne hm (hr ▸ hhand) hmm)
        · exact .inl hhand
      · refine .inr (.inl ?_)
        rw [setNode_node]
        split
        · next hr =>
          rcases hbuff (getKey m') with hk | ⟨-, hk, -⟩
          · exact ⟨r, by show buff _ = _; rw [hk, ← hr]; exact hb⟩
          · rw [hr] at hb; rw [hb] at hk; cases hk
        · exact ⟨r, hb⟩
      · exact .inr (.inr hhandled)

theorem Kept.resend (h : Kept S) {id : Id} {key : BitVec 64}
    (hst : resend maxNumRetry S id key = some S') : Kept S' := by
  obtain ⟨m, r, hm, rfl | ⟨buff, rfl, hbuff⟩⟩ := resend_cases hst
  · exact h.fail id fun _ hp => hp
  · obtain ⟨hsub, hkey, hsender⟩ := h.buff id key m r hm
    have hb' : ∀ w k, let v := (S.setNode id ⟨buff, (S.node id).acked, (S.node id).hand, (S.node id).handled,
        (S.node id).failed⟩).node w
        v.sendBuff k = (S.node w).sendBuff k ∨ w = id ∧ k = key ∧ v.sendBuff k = some (m, r + 1) := by
      intro w k
      simp only [setNode_node]
      split
      · next hw => exact (hbuff k).imp (fun hk => by rw [hw]; exact hk) fun hk => ⟨hw, hk⟩
      · exact .inl rfl
    refine ⟨h.keys, h.nodup, fun m' hm' => ?_, fun dst k hk => ?_, fun w m' hm' => ?_, fun w k m' r' hb => ?_,
      fun w m' hm' => ?_, fun m' hm' => ?_⟩
    · rcases List.mem_append.mp hm' with hm' | hm'
      · exact h.wire m' hm'
      · cases List.mem_singleton.mp hm'; exact hsub
    · rcases List.mem_append.mp hk with hk | hk
      · obtain ⟨m', hm', h1, h2, h3⟩ := h.acks dst k hk
        exact ⟨m', hm', h1, h2, by rw [sendMsg_handled, setNode_handled]; exact h3⟩
      · cases List.mem_singleton.mp hk
    · rw [sendMsg_hand, setNode_hand] at hm'
      rcases List.mem_append.mp hm' with hm' | hm'
      · exact h.hand w m' hm'
      · split at hm'
        · next hw => cases List.mem_singleton.mp hm'; exact ⟨hsub, hw.symm⟩
        · cases hm'
    · rw [sendMsg_sendBuff] at hb
      rcases hb' w k with hk | ⟨rfl, rfl, hk⟩
      · exact h.buff w k m' r' (hk ▸ hb)
      · rw [hk] at hb
        cases hb
        exact ⟨hsub, hkey, hsender⟩
    · rw [sendMsg_handled, setNode_handled] at hm'
      exact h.handled w m' hm'
    · rw [sendMsg_hand, sendMsg_sendBuff, sendMsg_handled, setNode_handled, setNode_hand]
      rcases h.safe m' hm' with hin | ⟨r', hb⟩ | hdone
      · exact .inl (List.mem_append_left _ hin)
      · rcases hb' m'.sender (getKey m') with hk | ⟨-, hk, hk'⟩
        · exact .inr (.inl ⟨r', hk.trans hb⟩)
        · cases h.keys m hsub m' hm' (hkey.trans hk.symm)
          exact .inr (.inl ⟨r + 1, hk'⟩)
      · exact .inr (.inr hdone)

theorem Kept.deliver (h : Kept S) (ho : Once S) {i : Nat}
    (hst : deliver S i = some S') : Kept S' := by
  have herase : ∀ p ∈ S.wire.eraseIdx i, p ∈ S.wire := fun _ hp => List.mem_of_mem_eraseIdx hp
  obtain ⟨p, hp, ⟨dst, key, rfl, rfl⟩ | ⟨m, -, -, rfl⟩ | ⟨m, rfl, -, ⟨hk, rfl⟩ | ⟨hk, rfl⟩⟩⟩ := deliver_cases hst
  · -- an acknowledgement: the entry goes, and what it stood for has been handled
    obtain ⟨m, hsub, rfl, hdst, hdone⟩ := h.acks dst key (List.mem_of_getElem? hp)
    refine ⟨h.keys, h.nodup, fun m' hm' => h.wire m' (herase _ hm'), fun d k hk => ?_, fun w m' hm' => ?_,
      fun w k m' r hb => ?_, fun w m' hm' => ?_, fun m' hm' => ?_⟩
    · obtain ⟨m', hm', h1, h2, h3⟩ := h.acks d k (herase _ hk)
      exact ⟨m', hm', h1, h2, by rw [setNode_handled]; exact h3⟩
    · rw [setNode_hand] at hm'; exact h.hand w m' hm'
    · rw [setNode_node] at hb
      split at hb
      · next hw =>
        dsimp only at hb
        split at hb
        · cases hb
        · rw [hw]; exact h.buff dst k m' r hb
      · exact h.buff w k m' r hb
    · rw [setNode_handled] at hm'; exact h.handled w m' hm'
    · rw [setNode_handled, setNode_hand]
      rcases h.safe m' hm' with hhand | ⟨r, hb⟩ | hhandled
      · exact .inl hhand
      · by_cases hkk : getKey m' = getKey m
        · cases h.keys m' hm' m hsub hkk
          exact .inr (.inr hdone)
        · refine .inr (.inl ⟨r, ?_⟩)
          rw [setNode_node]
          split
          · next hw => dsimp only; rw [if_neg hkk, ← hw]; exact hb
          · exact hb
      · exact .inr (.inr hhandled)
  · exact h.fail m.recver herase
  · -- a duplicate: the one with its key is itself
    have hsub := h.wire m (List.mem_of_getElem? hp)
    obtain ⟨m₁, hm₁, hkey⟩ := List.mem_map.mp ((ho.acked _ _).mp hk)
    cases h.keys m₁ (h.handled _ m₁ hm₁).1 m hsub hkey
    refine { h with wire := fun m' hm' => ?_, acks := fun d k hk' => ?_ }
    · rcases List.mem_append.mp hm' with hm' | hm'
      · exact h.wire m' (herase _ hm')
      · cases List.mem_singleton.mp hm'
    · rcases List.mem_append.mp hk' with hk' | hk'
      · exact h.acks d k (herase _ hk')
      · cases List.mem_singleton.mp hk'
        exact ⟨m, hsub, rfl, rfl, hm₁⟩
  · have hsub := h.wire m (List.mem_of_getElem? hp)
    have hmono : ∀ w (v : Node P), v.handled = (S.node m.recver).handled ++ [m] → ∀ m' ∈ (S.node w).handled,
        m' ∈ (if w = m.recver then v else S.node w).handled := fun w v hv m' hm' => by
      split
      · next hw => rw [hv, ← hw]; exact List.mem_append_left _ hm'
      · exact hm'
    refine ⟨h.keys, h.nodup, fun m' hm' => ?_, fun d k hk' => ?_, fun w m' hm' => ?_,
      fun w k m' r hb => ?_, fun w m' hm' => ?_, fun m' hm' => ?_⟩
    · rcases List.mem_append.mp hm' with hm' | hm'
      · exact h.wire m' (herase _ hm')
      · cases List.mem_singleton.mp hm'
    · rcases List.mem_append.mp hk' with hk' | hk'
      · obtain ⟨m', hm', h1, h2, h3⟩ := h.acks d k (herase _ hk')
        exact ⟨m', hm', h1, h2, hmono _ _ rfl m' h3⟩
      · cases List.mem_singleton.mp hk'
        refine ⟨m, hsub, rfl, rfl, ?_⟩
        rw [setNode_node, if_pos rfl]
        exact List.mem_append_right _ List.mem_cons_self
    · rw [setNode_hand] at hm'; exact h.hand w m' hm'
    · rw [setNode_sendBuff] at hb; exact h.buff w k m' r hb
    · rw [setNode_node] at hm'
      split at hm'
      · next hw =>
        rcases List.mem_append.mp hm' with hm' | hm'
        · rw [hw]; exact h.handled _ m' hm'
        · cases List.mem_singleton.mp hm'; exact ⟨hsub, hw.symm⟩
      · exact h.handled w m' hm'
    · rw [setNode_hand, setNode_sendBuff]
      exact (h.safe m' hm').imp_right fun h' => h'.imp_right (hmono _ _ rfl m')

theorem kept_inductive (P : Type) (maxNumRetry : Nat) :
    ((machine P maxNumRetry).restrict Fresh).Inductive fun S => Kept S ∧ Once S where
  init := fun S hS => by rw [show S = State.init P from hS]; exact ⟨Kept.init, Once.init⟩
  step := fun S a S' h hst => by
    obtain ⟨hst, hfresh⟩ := hst
    refine ⟨?_, (once_inductive P maxNumRetry).step S a S' h.2 hst⟩
    replace hst := effect_of_step hst
    cases a with
    | submit m => cases hst; exact h.1.submit hfresh
    | addOutgoing id i => exact h.1.addOutgoing hst
    | resend id key => exact h.1.resend hst
    | deliver i => exact h.1.deliver h.2 hst
    | lose i =>
      cases hst
      exact { h.1 with
        wire := fun m hm => h.1.wire m (List.mem_of_mem_eraseIdx hm)
        acks := fun dst k hk => h.1.acks dst k (List.mem_of_mem_eraseIdx hk)
        safe := h.1.safe }

/-- **Exactly once.** If every message has a key of its own: a node handles only messages for it, each
of them once at most; a message that has not been handled is with its sender, on the way into the
buffer or in it; so when no sender has a message, what a node has handled is what was sent to it. -/
theorem exactly_once [DecidableEq P] (maxNumRetry : Nat) (S : State P)
    (h : ((machine P maxNumRetry).restrict Fresh).Reachable S) :
    (∀ w, (S.node w).handled.Nodup ∧ ∀ m ∈ (S.node w).handled, m ∈ S.submitted ∧ m.recver = w) ∧
    (∀ m ∈ S.submitted, m ∈ (S.node m.sender).hand ∨
      (∃ r, (S.node m.sender).sendBuff (getKey m) = some (m, r)) ∨ m ∈ (S.node m.recver).handled) ∧
    ((∀ w, (S.node w).hand = [] ∧ ∀ k, (S.node w).sendBuff k = none) →
      ∀ w, (S.node w).handled.Perm (S.submitted.filter (·.recver = w))) := by
  obtain ⟨hkept, honce⟩ := (kept_inductive P maxNumRetry).reachable S h
  have hnodup : ∀ w, (S.node w).handled.Nodup := fun w => (honce.nodup w).of_map _
  refine ⟨fun w => ⟨hnodup w, hkept.handled w⟩, hkept.safe, fun hquiet w => ?_⟩
  refine (List.perm_ext_iff_of_nodup (hnodup w) (hkept.nodup.filter _)).mpr fun m => ?_
  rw [List.mem_filter, decide_eq_true_eq]
  refine ⟨hkept.handled w m, fun ⟨hm, hw⟩ => ?_⟩
  rcases hkept.safe m hm with hin | ⟨r, hb⟩ | hdone
  · rw [(hquiet m.sender).1] at hin; cases hin
  · rw [(hquiet m.sender).2] at hb; cases hb
  · rw [← hw]; exact hdone

instance (S : State P) : (a : Act P) → (S' : State P) → Decidable (Fresh S a S')
  | .submit m, _ => inferInstanceAs (Decidable (∀ m' ∈ S.submitted, getKey m' ≠ getKey m))
  | .addOutgoing _ _, _ | .resend _ _, _ | .deliver _, _ | .lose _, _ => .isTrue trivial

/-- The first copy is lost, the second one is acknowledged. -/
def lossy : List (Act Nat) :=
  [.submit (msgTo 0), .lose 0, .addOutgoing 9 0, .resend 9 (getKey (msgTo 0)), .deliver 0, .addOutgoing 9 0, .deliver 0]

theorem exactly_once_lossy : ∃ S, ((machine Nat 10).restrict Fresh).Reachable S ∧
    S.submitted = [msgTo 0] ∧ (S.node 8).handled.Perm [msgTo 0] := by
  obtain ⟨S, hS, hsub, hquiet⟩ : ∃ S, LTS.execute (LTS.guarded (step 10) Fresh) (State.init Nat) lossy = some S ∧
      S.submitted = [msgTo 0] ∧ ∀ w, (S.node w).hand = [] ∧ ∀ k, (S.node w).sendBuff k = none := by
    refine ⟨_, rfl, rfl, fun w => ?_⟩
    by_cases h9 : w = 9#32
    · subst h9
      refine ⟨rfl, fun k => ?_⟩
      change (if k = getKey (msgTo 0) then none else if k = getKey (msgTo 0) then some (msgTo 0, 1)
        else if k = getKey (msgTo 0) then some (msgTo 0, 0) else none) = none
      split
      · rfl
      · rfl
    · by_cases h8 : w = 8#32 <;> simp [State.setNode, State.sendMsg, State.init, msgTo, h9, h8]
  have hr := LTS.Reachable.of_execute (.init (M := (machine Nat 10).restrict Fresh) rfl) hS
  have hperm := (exactly_once 10 S hr).2.2 hquiet 8
  rw [hsub] at hperm
  exact ⟨S, hr, hsub, hperm⟩

end Distinct

/-! ## Which messages share a key -/

section Bits
variable {P : Type} (m m' : Msg P)

/-- The bits of the key above the timestamp. -/
def address : BitVec 32 :=
  m.appId.setWidth 16 ++ m.sender.setWidth 8 ++ m.recver.setWidth 8

theorem address_eq_iff : address m = address m' ↔ m.appId.setWidth 16 = m'.appId.setWidth 16 ∧
    m.sender.setWidth 8 = m'.sender.setWidth 8 ∧ m.recver.setWidth 8 = m'.recver.setWidth 8 := by
  refine ⟨fun h => ?_, fun ⟨h₁, h₂, h₃⟩ => by rw [address, address, h₁, h₂, h₃]⟩
  have hr := congrArg (BitVec.extractLsb' 0 8) h
  have hl := congrArg (BitVec.extractLsb' 8 24) h
  simp only [address, BitVec.extractLsb'_append_eq_right] at hr
  simp only [address, BitVec.extractLsb'_append_eq_left] at hl
  have ha := congrArg (BitVec.extractLsb' 8 16) hl
  have hs := congrArg (BitVec.extractLsb' 0 8) hl
  simp only [BitVec.extractLsb'_append_eq_left] at ha
  simp only [BitVec.extractLsb'_append_eq_right] at hs
  exact ⟨ha, hs, hr⟩

theorem getLsbD_flag (b : Bool) (i : Nat) :
    (if b then 1#64 else 0#64).getLsbD i = (decide (i = 0) && b) := by
  cases b <;> simp [BitVec.getLsbD_one]

/-- The sign of `timestamp << 1` is bit 30 of the timestamp, and covers the address. -/
theorem getKey_getLsbD (i : Nat) : (getKey m).getLsbD i =
    if i < 32 then (m.timestamp <<< 1).getLsbD i || decide (i = 0) && m.request
    else (address m).getLsbD (i - 32) || decide (i < 64) && m.timestamp.getLsbD 30 := by
  simp only [getKey, address, BitVec.getLsbD_or, BitVec.getLsbD_shiftLeft, BitVec.getLsbD_signExtend,
    getLsbD_flag, BitVec.getLsbD_setWidth, BitVec.getLsbD_append, BitVec.msb_shiftLeft, BitVec.getMsbD]
  split
  · next hi =>
    have h : i < 40 ∧ i < 48 ∧ i < 64 := by omega
    simp [hi, h]
  · next hi =>
    by_cases h64 : i < 64
    · by_cases h48 : i < 48
      · by_cases h40 : i < 40
        · have h : i - 32 < 8 ∧ i - 32 < 64 ∧ i ≠ 0 := by omega
          simp [hi, h64, h48, h40, h]
        · have h : ¬ i - 32 < 8 ∧ i - 32 - 8 < 8 ∧ i - 40 < 8 ∧ i - 40 < 64 ∧ i ≠ 0 ∧
              i - 32 - 8 = i - 40 := by omega
          simp [hi, h64, h48, h40, h]
      · have h : ¬ i - 32 < 8 ∧ ¬ i - 40 < 8 ∧ i - 48 < 16 ∧ i - 48 < 64 ∧ ¬ i < 40 ∧ i ≠ 0 ∧
            i - 32 - 8 = i - 40 ∧ i - 40 - 8 = i - 48 := by omega
        simp [hi, h64, h48, h]
    · have h : ¬ i < 40 ∧ ¬ i < 48 ∧ ¬ i - 32 < 8 ∧ ¬ i - 32 - 8 < 8 ∧ ¬ i - 48 < 16 ∧ i ≠ 0 ∧
          ¬ i - 32 - 8 - 8 < 16 ∧ ¬ i - 40 < 8 := by omega
      simp [hi, h64, h]

/-- **Which messages share a key.** The request flag and the timestamp, its top bit apart, are those
of the key; but from timestamp `2 ^ 30` on the address is lost, and with it who talks to whom. -/
theorem getKey_eq_iff : getKey m = getKey m' ↔
    m.request = m'.request ∧ m.timestamp <<< 1 = m'.timestamp <<< 1 ∧
      (m.timestamp.getLsbD 30 ∨ m.appId.setWidth 16 = m'.appId.setWidth 16 ∧
        m.sender.setWidth 8 = m'.sender.setWidth 8 ∧ m.recver.setWidth 8 = m'.recver.setWidth 8) := by
  rw [← address_eq_iff]
  constructor
  · intro h
    have hbit (i : Nat) := congrArg (BitVec.getLsbD · i) h
    simp only [getKey_getLsbD] at hbit
    have hreq : m.request = m'.request := by simpa using hbit 0
    have hts : m.timestamp <<< 1 = m'.timestamp <<< 1 := by
      refine BitVec.eq_of_getLsbD_eq fun i hi => ?_
      rcases Nat.eq_zero_or_pos i with rfl | hpos
      · simp
      · simpa [hi, Nat.ne_of_gt hpos] using hbit i
    have h30 : m.timestamp.getLsbD 30 = m'.timestamp.getLsbD 30 := by
      simpa using congrArg (BitVec.getLsbD · 31) hts
    refine ⟨hreq, hts, or_iff_not_imp_left.mpr fun hs => BitVec.eq_of_getLsbD_eq fun i hi => ?_⟩
    have hs' := Bool.eq_false_iff.mpr hs
    have hhigh := hbit (i + 32)
    rwa [if_neg (by omega), if_neg (by omega), Nat.add_sub_cancel, ← h30, hs', Bool.and_false, Bool.or_false,
      Bool.or_false] at hhigh
  · rintro ⟨hreq, hts, h⟩
    have h30 : m.timestamp.getLsbD 30 = m'.timestamp.getLsbD 30 := by
      simpa using congrArg (BitVec.getLsbD · 31) hts
    refine BitVec.eq_of_getLsbD_eq fun i hi => ?_
    rw [getKey_getLsbD, getKey_getLsbD, hreq, hts]
    split
    · rfl
    · rcases h with hs | ha
      · rw [← h30, hs, decide_eq_true hi, Bool.and_true, Bool.or_true, Bool.or_true]
      · rw [ha, h30]

end Bits

end Inca.L3.Resender
