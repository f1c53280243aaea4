import Mathlib

namespace Embryo.Kernel

def netisrIp : Nat := 0x1
def netisrArp : Nat := 0x4

def raiseTo (level curspl : Nat) : Nat := if curspl < level then level else curspl

def splsoftclock : Nat → Nat := raiseTo 1
def splsoftnet : Nat → Nat := raiseTo 1
def splnet : Nat → Nat := raiseTo 3
def splbio : Nat → Nat := raiseTo 4
def spltty : Nat → Nat := raiseTo 5
def splclock : Nat → Nat := raiseTo 7
def splimp : Nat → Nat := raiseTo 7
def splhigh (_ : Nat) : Nat := 7

inductive Spl where
  | softclock
  | softnet
  | net
  | bio
  | tty
  | clock
  | imp
  | high
deriving DecidableEq, Repr

def Spl.call : Spl → Nat → Nat
  | .softclock => splsoftclock
  | .softnet => splsoftnet
  | .net => splnet
  | .bio => splbio
  | .tty => spltty
  | .clock => splclock
  | .imp => splimp
  | .high => splhigh

inductive Isr where
  | ip
  | arp
deriving DecidableEq, Repr

def Isr.number : Isr → Nat
  | .ip => netisrIp
  | .arp => netisrArp

def Scheduled (netisr : BitVec 32) (isr : Isr) : Prop := netisr &&& 1#32 <<< isr.number ≠ 0

instance (netisr : BitVec 32) (isr : Isr) : Decidable (Scheduled netisr isr) :=
  inferInstanceAs (Decidable (_ ≠ _))

def schednetisr (netisr : BitVec 32) (isr : Isr) : BitVec 32 := netisr ||| 1#32 <<< isr.number

def cleared (netisr : BitVec 32) (isr : Isr) : BitVec 32 := netisr &&& ~~~ (1#32 <<< isr.number)

structure Ifqueue (P : Type) where
  packets : List P
  maxlen : Nat
  drops : Nat

inductive Frame (P : Type) where
  /-- Code between a function that raises the level and the `splx(s)` that goes with it. -/
  | raised (s : Nat)
  /-- `softnetpoll` within a `splx(new)`, with the interrupts it has not looked at yet. -/
  | netpoll (todo : List Isr) (new : Nat)
  /-- `ipintr` or `arpintr` before it takes a packet, when it has taken one, and in the input function. -/
  | intr (isr : Isr)
  | taken (isr : Isr) (m : Option P)
  | input (isr : Isr) (m : P)
  /-- `softpoll`, with the handlers it has not called yet. -/
  | softpoll (todo : List Nat)
  | handler (h : Nat)

/-- The levels and the queues, with the calls that are under way. `arrived` and `taken` only record
    what has come into a queue and what has been taken off it. -/
structure Soft (P : Type) where
  curspl : Nat
  netisr : BitVec 32
  ifq : Isr → Ifqueue P
  spollList : List Nat
  stack : List (Frame P)
  arrived : Isr → List P
  taken : Isr → List P

variable {P : Type}

namespace Soft

def softpoll (S : Soft P) : Soft P :=
  if S.curspl ≠ 0 then S else { S with curspl := 7, stack := .softpoll S.spollList :: S.stack }

def settle (S : Soft P) (new : Nat) : Soft P :=
  let S := { S with curspl := new }
  if S.curspl = 0 then S.softpoll else S

def splx (S : Soft P) (new : Nat) : Soft P :=
  if new < S.curspl then
    let S := if new < 7 then { S with curspl := 7 } else S
    let S := if new < 3 then { S with curspl := 3 } else S
    if new < 1 ∧ S.netisr ≠ 0 then { S with curspl := 1, stack := .netpoll [.ip, .arp] new :: S.stack }
    else S.settle new
  else S.settle new

def enqueue (S : Soft P) (isr : Isr) (m : P) : Soft P :=
  let q := S.ifq isr
  if q.packets.length ≥ q.maxlen then
    { S with ifq := Function.update S.ifq isr { q with drops := q.drops + 1 } }
  else
    { S with
      ifq := Function.update S.ifq isr { q with packets := q.packets ++ [m] }
      arrived := Function.update S.arrived isr (S.arrived isr ++ [m]) }

/-- `ether_input`, for a packet that it does not drop for its header. -/
def etherInput (S : Soft P) (isr : Isr) (m : P) : Soft P :=
  let S := { S with netisr := schednetisr S.netisr isr }
  let s := S.curspl
  (({ S with curspl := splimp s }).enqueue isr m).splx s

def looutput (S : Soft P) (m : P) : Soft P :=
  let s := S.curspl
  let S := { S with curspl := splimp s }
  if (S.ifq .ip).packets.length ≥ (S.ifq .ip).maxlen then (S.enqueue .ip m).splx s
  else
    let S := S.enqueue .ip m
    ({ S with netisr := schednetisr S.netisr .ip }).splx s

/-- The top of the loop of `ipintr` and `arpintr`: `IFQ_DEQUEUE` between `splimp` and `splx`. -/
def dequeue (S : Soft P) (isr : Isr) (rest : List (Frame P)) : Soft P :=
  let s := S.curspl
  let q := S.ifq isr
  splx { S with
    curspl := splimp s
    ifq := Function.update S.ifq isr { q with packets := q.packets.tail }
    taken := Function.update S.taken isr (S.taken isr ++ q.packets.head?.toList)
    stack := .taken isr q.packets.head? :: rest } s

end Soft

/-- What happens next. Code that is not below calls the functions of this file, the interfaces and
    the registry of the handlers; `ret` is the end of an input function or of a handler, and `next`
    is a step of the functions below. -/
inductive Action (P : Type) where
  | spl (f : Spl)
  | splx
  | etherInput (isr : Isr) (m : P)
  | looutput (m : P)
  | spollRegister (h : Nat)
  | spollUnregister (h : Nat)
  | ret
  | next

def running : List (Frame P) → Bool
  | [] => true
  | .raised _ :: _ => true
  | .input _ _ :: _ => true
  | .handler _ :: _ => true
  | _ => false

def Frame.without (h : Nat) : Frame P → Frame P
  | .softpoll todo => .softpoll (todo.erase h)
  | f => f

def Frame.calls (h : Nat) : Frame P → Bool
  | .handler h' => h == h'
  | _ => false

/-- A step of `softnetpoll`, `ipintr`, `arpintr` or `softpoll`. -/
def next (S : Soft P) : Option (Soft P) :=
  match S.stack with
  | .netpoll [] new :: rest => some (({ S with stack := rest }).settle new)
  | .netpoll (isr :: todo) new :: rest =>
    if Scheduled S.netisr isr then
      some { S with netisr := cleared S.netisr isr, stack := .intr isr :: .netpoll todo new :: rest }
    else some { S with stack := .netpoll todo new :: rest }
  | .intr isr :: rest => some (S.dequeue isr rest)
  | .taken _ none :: rest => some { S with stack := rest }
  | .taken isr (some m) :: rest => some { S with stack := .input isr m :: rest }
  | .softpoll [] :: rest => some { S with curspl := 0, stack := rest }
  | .softpoll (h :: todo) :: rest => some { S with stack := .handler h :: .softpoll todo :: rest }
  | _ => none

/-- One step. A handler is registered at an address that has none, and does not take itself off the list. -/
def step (S : Soft P) : Action P → Option (Soft P)
  | .spl f =>
    if running S.stack then
      some { S with curspl := f.call S.curspl, stack := .raised S.curspl :: S.stack } else none
  | .splx =>
    match S.stack with
    | .raised s :: rest => some (({ S with stack := rest }).splx s)
    | _ => none
  | .etherInput isr m => if running S.stack then some (S.etherInput isr m) else none
  | .looutput m => if running S.stack then some (S.looutput m) else none
  | .spollRegister h =>
    if running S.stack ∧ h ∉ S.spollList then some { S with spollList := h :: S.spollList } else none
  | .spollUnregister h =>
    if running S.stack ∧ ¬ S.stack.any (Frame.calls h) then
      some { S with spollList := S.spollList.erase h, stack := S.stack.map (Frame.without h) }
    else none
  | .ret =>
    match S.stack with
    | .input isr _ :: rest => some { S with stack := .intr isr :: rest }
    | .handler _ :: rest => some { S with stack := rest }
    | _ => none
  | .next => next S

theorem scheduled_iff (netisr : BitVec 32) (isr : Isr) :
    Scheduled netisr isr ↔ netisr.getLsbD isr.number = true := by
  rw [Scheduled, ← BitVec.twoPow_eq, BitVec.and_twoPow]
  split
  · next set => exact iff_of_true (by cases isr <;> decide) set
  · next unset => exact iff_of_false (fun some => some rfl) unset

theorem bit_getLsbD (isr isr' : Isr) : (1#32 <<< isr.number).getLsbD isr'.number = decide (isr' = isr) := by
  cases isr <;> cases isr' <;> rfl

@[simp] theorem scheduled_sched {netisr : BitVec 32} {isr isr' : Isr} :
    Scheduled (schednetisr netisr isr) isr' ↔ Scheduled netisr isr' ∨ isr' = isr := by
  rw [scheduled_iff, scheduled_iff, schednetisr, BitVec.getLsbD_or, bit_getLsbD, Bool.or_eq_true,
    decide_eq_true_eq]

@[simp] theorem scheduled_cleared {netisr : BitVec 32} {isr isr' : Isr} :
    Scheduled (cleared netisr isr) isr' ↔ Scheduled netisr isr' ∧ isr' ≠ isr := by
  have inside : isr'.number < 32 := by cases isr' <;> decide
  rw [scheduled_iff, scheduled_iff, cleared, BitVec.getLsbD_and, BitVec.getLsbD_not, bit_getLsbD,
    Bool.and_eq_true,
    Bool.and_eq_true, Bool.not_eq_true', decide_eq_false_iff_not, decide_eq_true_eq, and_iff_right inside]

theorem not_scheduled {netisr : BitVec 32} (none : netisr = 0) (isr : Isr) : ¬ Scheduled netisr isr := by
  rw [none]
  cases isr <;> decide

theorem raiseTo_le {level curspl : Nat} : curspl ≤ raiseTo level curspl ∧ level ≤ raiseTo level curspl := by
  unfold raiseTo
  split <;> omega

theorem raiseTo_high {level curspl : Nat} (low : level ≤ 7) (high : curspl ≤ 7) :
    raiseTo level curspl ≤ 7 := by
  unfold raiseTo
  split <;> assumption

theorem Spl.call_bounds (f : Spl) {curspl : Nat} (high : curspl ≤ 7) :
    curspl ≤ f.call curspl ∧ 1 ≤ f.call curspl ∧ f.call curspl ≤ 7 := by
  have raised : ∀ level, 1 ≤ level → level ≤ 7 →
      curspl ≤ raiseTo level curspl ∧ 1 ≤ raiseTo level curspl ∧ raiseTo level curspl ≤ 7 := by
    intro level some low
    obtain ⟨kept, masked⟩ := @raiseTo_le level curspl
    exact ⟨kept, le_trans some masked, raiseTo_high low high⟩
  cases f with
  | high => exact ⟨high, Nat.one_le_ofNat, le_refl 7⟩
  | _ => exact raised _ (by decide) (by decide)

/-- The level that the calls under way ask for: nothing but a raised level stands above 0, an
    interrupt is only served and the handlers are only called over the base, and what is above them
    is masked. -/
inductive Level : List (Frame P) → Nat → Prop
  | base : Level [] 0
  | raised {s level : Nat} {rest : List (Frame P)} :
      running rest = true → Level rest s → s ≤ level → 1 ≤ level → level ≤ 7 → Level (.raised s :: rest) level
  | netpoll {todo : List Isr} : Level [.netpoll todo 0] 1
  | intr {isr : Isr} {todo : List Isr} : Level [.intr isr, .netpoll todo 0] 1
  | taken {isr : Isr} {m : Option P} {todo : List Isr} : Level [.taken isr m, .netpoll todo 0] 1
  | input {isr : Isr} {m : P} {todo : List Isr} : Level [.input isr m, .netpoll todo 0] 1
  | softpoll {todo : List Nat} : Level [.softpoll todo] 7
  | handler {h : Nat} {todo : List Nat} : Level [.handler h, .softpoll todo] 7

theorem Level.high {stack : List (Frame P)} {level : Nat} (at_ : Level stack level) : level ≤ 7 := by
  cases at_ with
  | raised _ _ _ _ high => exact high
  | _ => decide

theorem Level.low {stack : List (Frame P)} (at_ : Level stack 0) : stack = [] := by
  cases at_ with
  | base => rfl
  | raised _ _ _ some _ => exact absurd some (by decide)

theorem Level.none {level : Nat} (at_ : Level ([] : List (Frame P)) level) : level = 0 := by
  cases at_
  rfl

theorem Level.netpoll_one {todo : List Isr} {new level : Nat}
    (at_ : Level [.netpoll (P := P) todo new] level) : level = 1 := by
  cases at_
  rfl

theorem settle_cases (S : Soft P) (new : Nat) :
    new ≠ 0 ∧ S.settle new = { S with curspl := new } ∨
      new = 0 ∧ S.settle new = { S with curspl := 7, stack := .softpoll S.spollList :: S.stack } := by
  by_cases zero : new = 0
  · refine .inr ⟨zero, ?_⟩
    rw [Soft.settle, if_pos zero, Soft.softpoll, if_neg (not_not.mpr zero)]
  · refine .inl ⟨zero, ?_⟩
    rw [Soft.settle, if_neg zero]

theorem splx_cases (S : Soft P) (new : Nat) :
    (new < S.curspl → new = 0 → S.netisr = 0) ∧ S.splx new = S.settle new ∨ new = 0 ∧
      S.splx new = { S with curspl := 1, stack := .netpoll [.ip, .arp] 0 :: S.stack } := by
  unfold Soft.splx
  split
  · have masked : ∃ c, (let T : Soft P := if new < 7 then { S with curspl := 7 } else S
        if new < 3 then { T with curspl := 3 } else T) = { S with curspl := c } := by
      dsimp only
      split <;> split <;> exact ⟨_, rfl⟩
    obtain ⟨c, masked⟩ := masked
    dsimp only at masked ⊢
    rw [masked]
    split
    · next lowest =>
      have zero := Nat.lt_one_iff.mp lowest.1
      exact .inr ⟨zero, zero ▸ rfl⟩
    · next quiet =>
      refine .inl ⟨fun _ zero => ?_, rfl⟩
      by_contra ringing
      exact quiet ⟨Nat.lt_one_iff.mpr zero, ringing⟩
  · next kept => exact .inl ⟨fun lower => absurd lower kept, rfl⟩

structure SameQueues (S S' : Soft P) : Prop where
  netisr : S'.netisr = S.netisr
  ifq : S'.ifq = S.ifq
  arrived : S'.arrived = S.arrived
  taken : S'.taken = S.taken

theorem splx_same (S : Soft P) (new : Nat) : SameQueues S (S.splx new) := by
  rcases splx_cases S new with ⟨_, settled⟩ | ⟨_, polled⟩
  · rcases settle_cases S new with ⟨_, done⟩ | ⟨_, done⟩ <;> rw [settled, done] <;> exact ⟨rfl, rfl, rfl, rfl⟩
  · rw [polled]
    exact ⟨rfl, rfl, rfl, rfl⟩

theorem settle_level {S : Soft P} {new : Nat} (back : Level S.stack new) :
    Level (S.settle new).stack (S.settle new).curspl := by
  rcases settle_cases S new with ⟨_, done⟩ | ⟨rfl, done⟩
  · rw [done]
    exact back
  · rw [done, back.low]
    exact .softpoll

theorem splx_level {S : Soft P} {s : Nat} (back : Level S.stack s) :
    Level (S.splx s).stack (S.splx s).curspl := by
  rcases splx_cases S s with ⟨_, settled⟩ | ⟨rfl, polled⟩
  · rw [settled]
    exact settle_level back
  · rw [polled, back.low]
    exact .netpoll

/-- What came into a queue is what has been taken off it and what is still in it, in order, and it
    holds no more than it may. -/
structure Filed (S : Soft P) : Prop where
  fifo : ∀ isr, S.arrived isr = S.taken isr ++ (S.ifq isr).packets
  room : ∀ isr, (S.ifq isr).packets.length ≤ (S.ifq isr).maxlen

def Frame.drains (isr : Isr) : Frame P → Prop
  | .intr i => i = isr
  | .taken i _ => i = isr
  | .input i _ => i = isr
  | _ => False

def Frame.serves (isr : Isr) : Frame P → Prop
  | .netpoll todo _ => isr ∈ todo
  | f => f.drains isr

def Drained (isr : Isr) (stack : List (Frame P)) : Prop := ∃ f ∈ stack, Frame.drains isr f

def Ahead (isr : Isr) (stack : List (Frame P)) : Prop := ∃ f ∈ stack, Frame.serves isr f

/-- A queue that is not empty waits for an interrupt that is scheduled, or its handler is at it. -/
def Waiting (S : Soft P) : Prop :=
  ∀ isr, (S.ifq isr).packets ≠ [] → Scheduled S.netisr isr ∨ Drained isr S.stack

def Emptied (S : Soft P) : Prop := ∀ isr rest, S.stack = .taken isr none :: rest → (S.ifq isr).packets = []

structure Kept (S : Soft P) : Prop where
  level : Level S.stack S.curspl
  filed : Filed S
  waiting : Waiting S
  emptied : Emptied S

structure Hands (old new : List (Frame P)) : Prop where
  drained : ∀ isr, Drained isr old → Drained isr new
  ahead : ∀ isr, Ahead isr old → Ahead isr new

theorem Hands.refl (stack : List (Frame P)) : Hands stack stack := ⟨fun _ => id, fun _ => id⟩

theorem Hands.push (f : Frame P) (stack : List (Frame P)) : Hands stack (f :: stack) := by
  constructor
  all_goals
    rintro isr ⟨g, called, work⟩
    exact ⟨g, List.mem_cons_of_mem f called, work⟩

theorem Hands.trans {old new newer : List (Frame P)} (first : Hands old new)
    (second : Hands new newer) : Hands old newer :=
  ⟨fun isr drained => second.drained isr (first.drained isr drained), fun isr ahead =>
    second.ahead isr (first.ahead isr ahead)⟩

theorem Frame.drains_serves {isr : Isr} {f : Frame P} (drains : f.drains isr) : f.serves isr := by
  cases f with
  | netpoll => cases drains
  | _ => exact drains

theorem Hands.swap {f g : Frame P} {rest : List (Frame P)} (drains : ∀ isr, f.drains isr → g.drains isr)
    (serves : ∀ isr, f.serves isr → g.serves isr) : Hands (f :: rest) (g :: rest) := by
  constructor
  · rintro isr ⟨e, called, work⟩
    rcases List.mem_cons.mp called with rfl | below
    · exact ⟨g, List.mem_cons_self, drains isr work⟩
    · exact ⟨e, List.mem_cons_of_mem g below, work⟩
  · rintro isr ⟨e, called, work⟩
    rcases List.mem_cons.mp called with rfl | below
    · exact ⟨g, List.mem_cons_self, serves isr work⟩
    · exact ⟨e, List.mem_cons_of_mem g below, work⟩

theorem Hands.pop {f : Frame P} {rest : List (Frame P)} (idle : ∀ isr, ¬ f.serves isr) :
    Hands (f :: rest) rest := by
  constructor
  · rintro isr ⟨e, called, work⟩
    rcases List.mem_cons.mp called with rfl | below
    · exact absurd (Frame.drains_serves work) (idle isr)
    · exact ⟨e, below, work⟩
  · rintro isr ⟨e, called, work⟩
    rcases List.mem_cons.mp called with rfl | below
    · exact absurd work (idle isr)
    · exact ⟨e, below, work⟩

def Grows (S S' : Soft P) : Prop := ∀ isr, S.arrived isr <+: S'.arrived isr ∧ S.taken isr <+: S'.taken isr

theorem grows_same {S S' : Soft P} (arrived : S'.arrived = S.arrived) (taken : S'.taken = S.taken) :
    Grows S S' :=
  fun _ => ⟨arrived ▸ List.prefix_refl _, taken ▸ List.prefix_refl _⟩

/-- What every step does: it keeps the invariant and what has happened, and an interrupt that was to
    be served still is, or there is nothing left in its queue. -/
structure Onward (S S' : Soft P) : Prop where
  kept : Kept S'
  grows : Grows S S'
  ahead : ∀ isr, Ahead isr S.stack → Ahead isr S'.stack ∨ (S'.ifq isr).packets = []

theorem SameQueues.filed {S S' : Soft P} (same : SameQueues S S') (filed : Filed S) : Filed S' := by
  constructor
  · rw [same.arrived, same.taken, same.ifq]
    exact filed.fifo
  · rw [same.ifq]
    exact filed.room

theorem SameQueues.waiting {S S' : Soft P} (same : SameQueues S S') (hands : Hands S.stack S'.stack)
    (waiting : Waiting S) :
    Waiting S' := by
  intro isr some
  rw [same.ifq] at some
  rw [same.netisr]
  exact (waiting isr some).imp_right (hands.drained isr)

theorem Kept.moved {S S' : Soft P} (kept : Kept S) (level : Level S'.stack S'.curspl) (same : SameQueues S S')
    (hands : Hands S.stack S'.stack) (top : ∀ isr rest, S'.stack ≠ .taken isr none :: rest) :
    Onward S S' where
  kept := ⟨level, same.filed kept.filed, same.waiting hands kept.waiting, fun isr rest calls =>
    absurd calls (top isr rest)⟩
  grows := grows_same same.arrived same.taken
  ahead isr ahead := .inl (hands.ahead isr ahead)

theorem splx_stack (S : Soft P) (new : Nat) :
    (S.splx new).stack = S.stack ∨ ∃ f, (S.splx new).stack = f :: S.stack ∧ ∀ isr m, f ≠ .taken isr m := by
  rcases splx_cases S new with ⟨_, settled⟩ | ⟨_, polled⟩
  · rcases settle_cases S new with ⟨_, done⟩ | ⟨_, done⟩
    · exact .inl (by rw [settled, done])
    · exact .inr ⟨_, by rw [settled, done], fun _ _ same => by cases same⟩
  · exact .inr ⟨_, by rw [polled], fun _ _ same => by cases same⟩

theorem splx_hands (S : Soft P) (new : Nat) : Hands S.stack (S.splx new).stack := by
  rcases splx_stack S new with same | ⟨f, pushed, _⟩
  · rw [same]
    exact .refl _
  · rw [pushed]
    exact .push f _

theorem splx_onward {S T : Soft P} {s : Nat} (back : Level T.stack s) (filed : Filed T)
    (waiting : Waiting T) (emptied : Emptied T)
    (grows : Grows S T) (hands : Hands S.stack T.stack) : Onward S (T.splx s) := by
  have same := splx_same T s
  have called := splx_hands T s
  refine ⟨⟨splx_level back, same.filed filed, same.waiting called waiting, ?_⟩, ?_, ?_⟩
  · intro isr rest top
    rw [same.ifq]
    rcases splx_stack T s with kept | ⟨f, pushed, other⟩
    · exact emptied isr rest (kept ▸ top)
    · rw [pushed] at top
      exact absurd (List.cons.inj top).1 (other isr none)
  · intro isr
    rw [same.arrived, same.taken]
    exact grows isr
  · exact fun isr ahead => .inl ((hands.trans called).ahead isr ahead)

theorem running_emptied {S : Soft P} (code : running S.stack = true) : Emptied S := by
  intro isr rest top
  rw [top] at code
  cases code

theorem enqueue_same (S : Soft P) (isr : Isr) (m : P) :
    (S.enqueue isr m).curspl = S.curspl ∧ (S.enqueue isr m).stack = S.stack ∧
      (S.enqueue isr m).netisr = S.netisr ∧
      (S.enqueue isr m).taken = S.taken := by
  unfold Soft.enqueue
  dsimp only
  split <;> exact ⟨rfl, rfl, rfl, rfl⟩

theorem enqueue_filed {S : Soft P} {isr : Isr} {m : P} (filed : Filed S) : Filed (S.enqueue isr m) := by
  unfold Soft.enqueue
  dsimp only
  split
  · constructor
    all_goals
      intro isr'
      by_cases same : isr' = isr
      · subst same
        simp only [Function.update_self]
        first | exact filed.fifo isr' | exact filed.room isr'
      · simp only [Function.update_of_ne same]
        first | exact filed.fifo isr' | exact filed.room isr'
  · next room =>
    constructor
    all_goals
      intro isr'
      by_cases same : isr' = isr
      · subst same
        simp only [Function.update_self]
        first
        | rw [filed.fifo, List.append_assoc]
        | rw [List.length_append, List.length_singleton]
          omega
      · simp only [Function.update_of_ne same]
        first | exact filed.fifo isr' | exact filed.room isr'

theorem enqueue_packets {S : Soft P} {isr isr' : Isr} {m : P} (other : isr' ≠ isr) :
    (S.enqueue isr m).ifq isr' = S.ifq isr' := by
  unfold Soft.enqueue
  dsimp only
  split <;> exact Function.update_of_ne other _ _

theorem enqueue_grows {S T : Soft P} {isr : Isr} {m : P} (grown : Grows S T) : Grows S (T.enqueue isr m) := by
  intro isr'
  rw [(enqueue_same T isr m).2.2.2]
  refine ⟨(grown isr').1.trans ?_, (grown isr').2⟩
  unfold Soft.enqueue
  dsimp only
  split
  · exact List.prefix_refl _
  · by_cases same : isr' = isr
    · subst same
      simp only [Function.update_self]
      exact List.prefix_append _ _
    · simp only [Function.update_of_ne same]
      exact List.prefix_refl _

theorem etherInput_onward {S : Soft P} {isr : Isr} {m : P} (code : running S.stack = true) (kept : Kept S) :
    Onward S (S.etherInput isr m) := by
  obtain ⟨_, stack, netisr, _⟩ :=
    enqueue_same { S with netisr := schednetisr S.netisr isr, curspl := splimp S.curspl } isr m
  refine splx_onward ?_ (enqueue_filed ⟨kept.filed.fifo, kept.filed.room⟩) ?_ (running_emptied ?_)
    (enqueue_grows (grows_same rfl rfl)) ?_
  · rw [stack]
    exact kept.level
  · intro isr' some
    rw [netisr, stack, scheduled_sched]
    by_cases same : isr' = isr
    · exact .inl (.inr same)
    · rw [enqueue_packets same] at some
      exact (kept.waiting isr' some).imp_left .inl
  · rw [stack]
    exact code
  · rw [stack]
    exact .refl _

theorem looutput_onward {S : Soft P} {m : P} (code : running S.stack = true) (kept : Kept S) :
    Onward S (S.looutput m) := by
  have filed := @enqueue_filed _ { S with curspl := splimp S.curspl } .ip m ⟨kept.filed.fifo, kept.filed.room⟩
  have grows := @enqueue_grows _ S { S with curspl := splimp S.curspl } .ip m (grows_same rfl rfl)
  obtain ⟨_, stack, netisr, _⟩ := enqueue_same { S with curspl := splimp S.curspl } .ip m
  have level := kept.level
  have hands := Hands.refl S.stack
  unfold Soft.looutput
  dsimp only at stack netisr ⊢
  split
  · next full =>
    refine splx_onward (stack.symm ▸ level) filed ?_ (running_emptied (stack.symm ▸ code)) grows
      (stack.symm ▸ hands)
    intro isr' some
    rw [netisr, stack]
    apply kept.waiting isr'
    by_cases same : isr' = .ip
    · subst same
      rw [Soft.enqueue, if_pos full] at some
      simpa only [Function.update_self] using some
    · rw [enqueue_packets same] at some
      exact some
  · refine splx_onward (stack.symm ▸ level) ⟨filed.fifo, filed.room⟩ ?_
      (running_emptied (stack.symm ▸ code)) grows
      (stack.symm ▸ hands)
    intro isr' some
    dsimp only at some ⊢
    rw [netisr, stack, scheduled_sched]
    by_cases same : isr' = .ip
    · exact .inl (.inr same)
    · rw [enqueue_packets same] at some
      exact (kept.waiting isr' some).imp_left .inl

theorem dequeue_onward {S : Soft P} {isr : Isr} {rest : List (Frame P)} (calls : S.stack = .intr isr :: rest)
    (back : Level (.taken isr (S.ifq isr).packets.head? :: rest) S.curspl) (kept : Kept S) :
    Onward S (S.dequeue isr rest) := by
  have hands : Hands S.stack (.taken isr (S.ifq isr).packets.head? :: rest) := by
    rw [calls]
    exact .swap (fun _ => id) (fun _ => id)
  unfold Soft.dequeue
  refine splx_onward back ⟨?_, ?_⟩ ?_ ?_ ?_ hands
  · intro isr'
    by_cases same : isr' = isr
    · subst same
      simp only [Function.update_self]
      rw [kept.filed.fifo, List.append_assoc]
      cases (S.ifq isr').packets <;> rfl
    · simp only [Function.update_of_ne same]
      exact kept.filed.fifo isr'
  · intro isr'
    by_cases same : isr' = isr
    · subst same
      simp only [Function.update_self]
      exact le_trans (List.length_tail .. ▸ Nat.sub_le _ _) (kept.filed.room isr')
    · simp only [Function.update_of_ne same]
      exact kept.filed.room isr'
  · intro isr' some
    by_cases same : isr' = isr
    · exact .inr ⟨_, List.mem_cons_self, same.symm⟩
    · simp only [Function.update_of_ne same] at some
      exact (kept.waiting isr' some).imp_right (hands.drained isr')
  · intro isr' rest' top
    obtain ⟨taken, _⟩ := List.cons.inj top
    injection taken with same none
    subst same
    simp only [Function.update_self]
    rw [List.head?_eq_none_iff.mp none]
    rfl
  · intro isr'
    refine ⟨List.prefix_refl _, ?_⟩
    by_cases same : isr' = isr
    · subst same
      simp only [Function.update_self]
      exact List.prefix_append _ _
    · simp only [Function.update_of_ne same]
      exact List.prefix_refl _

theorem settle_eq_splx (S : Soft P) (new : Nat) : S.settle new = ({ S with curspl := new }).splx new := by
  unfold Soft.splx
  rw [if_neg (Nat.lt_irrefl new)]
  rfl

theorem netpoll_onward {S S' : Soft P} {isr : Isr} {todo : List Isr}
    (calls : S.stack = [.netpoll (isr :: todo) 0])
    (stepped : next S = some S') (kept : Kept S) : Onward S S' := by
  have one : S.curspl = 1 := (calls ▸ kept.level).netpoll_one
  have undrained : ∀ isr, ¬ Drained isr S.stack := by
    rintro isr' ⟨f, called, drains⟩
    rw [calls] at called
    cases List.mem_singleton.mp called
    cases drains
  simp only [next, calls] at stepped
  split at stepped
  · cases stepped
    refine ⟨⟨one ▸ .intr, ⟨kept.filed.fifo, kept.filed.room⟩, ?_, fun _ _ top => by cases top⟩,
      grows_same rfl rfl, ?_⟩
    · intro isr' some
      by_cases same : isr' = isr
      · exact .inr ⟨_, List.mem_cons_self, same.symm⟩
      · exact .inl (scheduled_cleared.mpr ⟨(kept.waiting isr' some).resolve_right (undrained isr'), same⟩)
    · rintro isr' ⟨f, called, serves⟩
      rw [calls] at called
      cases List.mem_singleton.mp called
      rcases List.mem_cons.mp serves with rfl | later
      · exact .inl ⟨_, List.mem_cons_self, rfl⟩
      · exact .inl ⟨_, List.mem_cons_of_mem _ List.mem_cons_self, later⟩
  · next unset =>
    cases stepped
    refine ⟨⟨one ▸ .netpoll, ⟨kept.filed.fifo, kept.filed.room⟩, ?_, fun _ _ top => by cases top⟩,
      grows_same rfl rfl, ?_⟩
    · exact fun isr' some => .inl ((kept.waiting isr' some).resolve_right (undrained isr'))
    · rintro isr' ⟨f, called, serves⟩
      rw [calls] at called
      cases List.mem_singleton.mp called
      rcases List.mem_cons.mp serves with rfl | later
      · refine .inr ?_
        by_contra some
        exact unset ((kept.waiting isr' some).resolve_right (undrained isr'))
      · exact .inl ⟨_, List.mem_cons_self, later⟩

theorem next_onward {S S' : Soft P} (stepped : next S = some S') (kept : Kept S) : Onward S S' := by
  obtain ⟨curspl, netisr, ifq, spollList, stack, arrived, taken⟩ := S
  have at_ : Level stack curspl := kept.level
  cases at_ with
  | base => cases stepped
  | raised _ _ _ _ _ => cases stepped
  | @netpoll todo =>
    cases todo with
    | nil =>
      cases stepped
      rw [settle_eq_splx]
      have hands : Hands [Frame.netpoll (P := P) [] 0] [] := .pop fun _ none => by cases none
      refine splx_onward .base ⟨kept.filed.fifo, kept.filed.room⟩ ?_ (running_emptied rfl)
        (grows_same rfl rfl) hands
      exact fun isr some => (kept.waiting isr some).imp_right (hands.drained isr)
    | cons isr todo => exact netpoll_onward rfl stepped kept
  | intr =>
    cases stepped
    exact dequeue_onward rfl .taken kept
  | @taken isr m todo =>
    cases m with
    | none =>
      cases stepped
      have empty := kept.emptied isr _ rfl
      refine ⟨⟨.netpoll, ⟨kept.filed.fifo, kept.filed.room⟩, ?_, fun _ _ top => by cases top⟩,
        grows_same rfl rfl, ?_⟩
      · intro isr' some
        rcases kept.waiting isr' some with scheduled | ⟨f, called, drains⟩
        · exact .inl scheduled
        · rcases List.mem_cons.mp called with rfl | below
          · exact absurd (drains ▸ empty) some
          · exact .inr ⟨f, below, drains⟩
      · rintro isr' ⟨f, called, serves⟩
        rcases List.mem_cons.mp called with rfl | below
        · cases serves
          exact .inr empty
        · exact .inl ⟨f, below, serves⟩
    | some m =>
      cases stepped
      exact kept.moved .input ⟨rfl, rfl, rfl, rfl⟩ (.swap (fun _ => id) (fun _ => id))
        fun _ _ top => by cases top
  | input => cases stepped
  | @softpoll todo =>
    cases todo with
    | nil =>
      cases stepped
      exact kept.moved .base ⟨rfl, rfl, rfl, rfl⟩ (.pop fun _ => id) fun _ _ top => by cases top
    | cons h todo =>
      cases stepped
      have hands : Hands [Frame.softpoll (P := P) (h :: todo)] [.softpoll todo] :=
        .swap (fun _ => id) (fun _ => id)
      exact kept.moved .handler ⟨rfl, rfl, rfl, rfl⟩ (hands.trans (.push _ _)) fun _ _ top => by cases top
  | handler => cases stepped

theorem without_running (h : Nat) (stack : List (Frame P)) :
    running (stack.map (Frame.without h)) = running stack := by
  cases stack with
  | nil => rfl
  | cons f rest => cases f <;> rfl

theorem without_level {stack : List (Frame P)} {level : Nat} (h : Nat) (at_ : Level stack level) :
    Level (stack.map (Frame.without h)) level := by
  induction at_ with
  | base => exact .base
  | raised code _ less some high back => exact .raised ((without_running h _).trans code) back less some high
  | netpoll => exact .netpoll
  | intr => exact .intr
  | taken => exact .taken
  | input => exact .input
  | softpoll => exact .softpoll
  | handler => exact .handler

theorem without_hands (h : Nat) (stack : List (Frame P)) : Hands stack (stack.map (Frame.without h)) := by
  constructor
  all_goals
    rintro isr ⟨f, called, work⟩
    refine ⟨_, List.mem_map_of_mem called, ?_⟩
    cases f <;> exact work

theorem step_onward {S S' : Soft P} {a : Action P} (stepped : step S a = some S') (kept : Kept S) :
    Onward S S' := by
  have at_ := kept.level
  cases a with
  | spl f =>
    simp only [step] at stepped
    split at stepped
    · next code =>
      cases stepped
      obtain ⟨masks, some, high⟩ := f.call_bounds at_.high
      exact kept.moved (.raised code at_ masks some high) ⟨rfl, rfl, rfl, rfl⟩ (.push _ _)
        fun _ _ top => by cases top
    · cases stepped
  | splx =>
    simp only [step] at stepped
    split at stepped
    · next s rest calls =>
      cases stepped
      have hands : Hands S.stack rest := by
        rw [calls]
        exact .pop fun _ => id
      rw [calls] at at_
      cases at_ with
      | raised code back _ _ _ =>
        refine splx_onward back ⟨kept.filed.fifo, kept.filed.room⟩ ?_ (running_emptied code)
          (grows_same rfl rfl) hands
        exact fun isr some => (kept.waiting isr some).imp_right (hands.drained isr)
    · cases stepped
  | etherInput isr m =>
    simp only [step] at stepped
    split at stepped
    · next code =>
      cases stepped
      exact etherInput_onward code kept
    · cases stepped
  | looutput m =>
    simp only [step] at stepped
    split at stepped
    · next code =>
      cases stepped
      exact looutput_onward code kept
    · cases stepped
  | spollRegister h =>
    simp only [step] at stepped
    split at stepped
    · next code =>
      cases stepped
      refine kept.moved at_ ⟨rfl, rfl, rfl, rfl⟩ (.refl _) fun isr rest top => ?_
      have code := code.1
      rw [show S.stack = _ from top] at code
      cases code
    · cases stepped
  | spollUnregister h =>
    simp only [step] at stepped
    split at stepped
    · next code =>
      cases stepped
      refine kept.moved (without_level h at_) ⟨rfl, rfl, rfl, rfl⟩ (without_hands h _) fun isr rest top => ?_
      have code := (without_running h S.stack).trans code.1
      rw [show S.stack.map (Frame.without h) = _ from top] at code
      cases code
    · cases stepped
  | ret =>
    obtain ⟨curspl, netisr, ifq, spollList, stack, arrived, taken⟩ := S
    dsimp only at at_
    cases at_ with
    | input =>
      cases stepped
      exact kept.moved .intr ⟨rfl, rfl, rfl, rfl⟩ (.swap (fun _ => id) (fun _ => id))
        fun _ _ top => by cases top
    | handler =>
      cases stepped
      exact kept.moved .softpoll ⟨rfl, rfl, rfl, rfl⟩ (.pop fun _ => id) fun _ _ top => by cases top
    | _ => cases stepped
  | next => exact next_onward stepped kept

def Soft.boot (maxlen : Isr → Nat) : Soft P :=
  ⟨0, 0, fun isr => ⟨[], maxlen isr, 0⟩, [], [], fun _ => [], fun _ => []⟩

def run (S : Soft P) : List (Action P) → Option (Soft P)
  | [] => some S
  | a :: rest => (step S a).bind fun S' => run S' rest

theorem run_kept {S S' : Soft P} {actions : List (Action P)} (ran : run S actions = some S')
    (kept : Kept S) : Kept S' := by
  induction actions generalizing S with
  | nil =>
    cases ran
    exact kept
  | cons a rest ih =>
    obtain ⟨T, stepped, ran⟩ := Option.bind_eq_some_iff.mp ran
    exact ih ran ((step_onward stepped kept).kept)

theorem boot_kept (maxlen : Isr → Nat) : Kept (Soft.boot (P := P) maxlen) := by
  refine ⟨.base, ⟨fun _ => rfl, fun _ => Nat.zero_le _⟩, fun _ some => absurd rfl some,
    fun _ _ top => by cases top⟩

theorem run_ahead {S S' : Soft P} {isr : Isr} {due : List P} {actions : List (Action P)}
    (ran : run S actions = some S')
    (kept : Kept S) (came : due <+: S.arrived isr) (first : due <+: S.taken isr ∨ Ahead isr S.stack) :
    due <+: S'.taken isr ∨ Ahead isr S'.stack := by
  induction actions generalizing S with
  | nil =>
    cases ran
    exact first
  | cons a rest ih =>
    obtain ⟨T, stepped, ran⟩ := Option.bind_eq_some_iff.mp ran
    have onward := step_onward stepped kept
    have cameT := came.trans (onward.grows isr).1
    refine ih ran onward.kept cameT ?_
    rcases first with taken | ahead
    · exact .inl (taken.trans (onward.grows isr).2)
    · rcases onward.ahead isr ahead with still | empty
      · exact .inr still
      · refine .inl ?_
        rw [onward.kept.filed.fifo, empty, List.append_nil] at cameT
        exact cameT

def Frame.polls : Frame P → Prop
  | .netpoll _ _ => True
  | .softpoll _ => True
  | _ => False

theorem Level.polls {above below : List (Frame P)} {f : Frame P} {level : Nat}
    (at_ : Level (above ++ f :: below) level) (polls : f.polls) : below = [] := by
  generalize calls : above ++ f :: below = stack at at_
  induction at_ generalizing above with
  | base => exact absurd calls (by simp)
  | raised _ _ _ _ _ ih =>
    cases above with
    | nil =>
      cases calls
      cases polls
    | cons g above => exact ih (List.cons.inj calls).2
  | netpoll =>
    cases above with
    | nil => exact (List.cons.inj calls).2
    | cons g above => exact absurd (List.cons.inj calls).2 (by simp)
  | softpoll =>
    cases above with
    | nil => exact (List.cons.inj calls).2
    | cons g above => exact absurd (List.cons.inj calls).2 (by simp)
  | _ =>
    cases above with
    | nil =>
      cases calls
      cases polls
    | cons _ above =>
      cases above with
      | nil => exact (List.cons.inj (List.cons.inj calls).2).2
      | cons _ above => exact absurd (List.cons.inj (List.cons.inj calls).2).2 (by simp)

/-- In every run the two loops of `splx` stand under everything else that is under way, so that
    neither they nor a handler are entered twice; at the base the level is 0; and each `splx(s)`
    that goes with a raised level goes back to `s`, where it is not the one that ends at the base.
    -/
theorem levels_kept (maxlen : Isr → Nat) (actions : List (Action P)) (S : Soft P)
    (ran : run (.boot maxlen) actions = some S) :
    (∀ above f below, S.stack = above ++ f :: below → f.polls → below = []) ∧ (S.stack = [] → S.curspl = 0) ∧
      ∀ s rest, S.stack = .raised s :: rest → s ≤ S.curspl ∧ 1 ≤ S.curspl ∧ (s = 0 ↔ rest = []) ∧
        ∃ S', step S .splx = some S' ∧ (s ≠ 0 → S'.stack = rest ∧ S'.curspl = s) := by
  have at_ := (run_kept ran (boot_kept maxlen)).level
  refine ⟨fun above f below calls polls => (calls ▸ at_).polls polls, fun none => (none ▸ at_).none, ?_⟩
  intro s rest calls
  rw [calls] at at_
  cases at_ with
  | raised code back less some high =>
    refine ⟨less, some, ⟨?_, ?_⟩, ({ S with stack := rest }).splx s, by simp only [step, calls], ?_⟩
    · rintro rfl
      exact back.low
    · rintro rfl
      exact back.none
    · intro masked
      rcases splx_cases { S with stack := rest } s with ⟨_, settled⟩ | ⟨zero, _⟩
      · rcases settle_cases { S with stack := rest } s with ⟨_, done⟩ | ⟨zero, _⟩
        · rw [settled, done]
          exact ⟨rfl, rfl⟩
        · exact absurd zero masked
      · exact absurd zero masked

theorem levels_kept_nested : ∃ S, run (.boot (P := Nat) fun _ => 50)
      [.spl .net, .etherInput .ip 7, .splx, .next, .next, .next, .spl .imp] = some S ∧
    S.stack = [.raised 1, .input .ip 7, .netpoll [.arp] 0] ∧
    ∃ S', step S .splx = some S' ∧ S'.stack = [.input .ip 7, .netpoll [.arp] 0] ∧ S'.curspl = 1 := by
  obtain ⟨S, ran, calls⟩ : ∃ S, run (.boot (P := Nat) fun _ => 50)
      [.spl .net, .etherInput .ip 7, .splx, .next, .next, .next, .spl .imp] = some S ∧
      S.stack = [.raised 1, .input .ip 7, .netpoll [.arp] 0] := ⟨_, rfl, rfl⟩
  obtain ⟨_, _, _, S', stepped, restored⟩ := (levels_kept _ _ S ran).2.2 1 _ calls
  obtain ⟨back, level⟩ := restored (by decide)
  exact ⟨S, ran, calls, S', stepped, back, level⟩

/-- In every run each queue hands over what came into it in order, once, and holds what has not been
    taken; a packet that is in it is waited for by a scheduled interrupt or by the handler at work.
    -/
theorem packets_kept (maxlen : Isr → Nat) (actions : List (Action P)) (S : Soft P)
    (ran : run (.boot maxlen) actions = some S) (isr : Isr) :
    S.arrived isr = S.taken isr ++ (S.ifq isr).packets ∧ (S.ifq isr).packets.length ≤ (S.ifq isr).maxlen ∧
      ((S.ifq isr).packets ≠ [] → Scheduled S.netisr isr ∨ Drained isr S.stack) := by
  have kept := run_kept ran (boot_kept maxlen)
  exact ⟨kept.filed.fifo isr, kept.filed.room isr, kept.waiting isr⟩

theorem packets_kept_raised : ∃ S, run (.boot (P := Nat) fun _ => 50)
    [.spl .net, .etherInput .ip 7] = some S ∧
    S.arrived .ip = S.taken .ip ++ [7] ∧ (Scheduled S.netisr .ip ∨ Drained .ip S.stack) := by
  refine ⟨_, rfl, ?_⟩
  obtain ⟨fifo, _, waiting⟩ := packets_kept (P := Nat) (fun _ => 50) [.spl .net, .etherInput .ip 7] _ rfl .ip
  exact ⟨fifo, waiting (List.cons_ne_nil 7 [])⟩

/-- Whatever is in a queue when the outermost level is given up has been handed over when that call
    returns. -/
theorem outermost_splx_delivers (maxlen : Isr → Nat) (actions more : List (Action P)) (S S' : Soft P)
    (ran : run (.boot maxlen) actions = some S) (outermost : ∃ s, S.stack = [.raised s])
    (left : run S (.splx :: more) = some S') (back : S'.stack = []) (isr : Isr) :
    S.taken isr ++ (S.ifq isr).packets <+: S'.taken isr := by
  have kept := run_kept ran (boot_kept maxlen)
  obtain ⟨s, calls⟩ := outermost
  obtain ⟨T, stepped, left⟩ := Option.bind_eq_some_iff.mp left
  have onward := step_onward stepped kept
  have came := (onward.grows isr).1
  rw [kept.filed.fifo] at came
  have start : S.taken isr ++ (S.ifq isr).packets <+: T.taken isr ∨ Ahead isr T.stack := by
    have same := splx_same { S with stack := [] } s
    simp only [step, calls, Option.some.injEq] at stepped
    subst stepped
    have at_ := kept.level
    rw [calls] at at_
    cases at_ with
    | raised _ bottom _ some _ =>
      have zero := bottom.none
      subst zero
      by_cases queued : (S.ifq isr).packets = []
      · rw [queued, List.append_nil, same.taken]
        exact .inl (List.prefix_refl _)
      · have scheduled : Scheduled S.netisr isr := by
          refine (kept.waiting isr queued).resolve_right ?_
          rintro ⟨f, called, drains⟩
          rw [calls] at called
          cases List.mem_singleton.mp called
          cases drains
        rcases splx_cases { S with stack := [] } 0 with ⟨quiet, _⟩ | ⟨_, polled⟩
        · exact absurd scheduled (not_scheduled (quiet some rfl) isr)
        · rw [polled]
          exact .inr ⟨_, List.mem_cons_self, by cases isr <;> simp [Frame.serves]⟩
  rcases run_ahead left onward.kept came start with taken | ⟨f, called, _⟩
  · exact taken
  · rw [back] at called
    cases called

theorem outermost_splx_delivers_packet :
    ∃ S S', run (.boot (P := Nat) fun _ => 50) [.spl .net, .etherInput .ip 7] = some S ∧
    run S [.splx, .next, .next, .next, .ret, .next, .next, .next, .next, .next] = some S' ∧
        [7] <+: S'.taken .ip := by
  refine ⟨_, _, rfl, rfl, ?_⟩
  exact outermost_splx_delivers (P := Nat) (fun _ => 50) [.spl .net, .etherInput .ip 7]
    [.next, .next, .next, .ret, .next, .next, .next, .next, .next] _ _ rfl ⟨0, rfl⟩ rfl rfl .ip

end Embryo.Kernel
