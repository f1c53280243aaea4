import Embryo.Machine.Loop

namespace Embryo.Fs

open Embryo.Machine

structure Termio where
  l_flags : UInt16
  i_flags : UInt16
  o_flags : UInt16
  t_ctlcodes : Nat → UInt8

def TLISIG : UInt16 := 1
def TLICANON : UInt16 := 2
def TLECHO : UInt16 := 4
def TLECHOE : UInt16 := 8

def TICRNL : UInt16 := 1
def TISTRIP : UInt16 := 2
def TIERXFC : UInt16 := 4

def TONLCR : UInt16 := 1
def TOANYFC : UInt16 := 2
def TOETXFC : UInt16 := 4

def CC_VERASE : Nat := 1
def CC_VEOL : Nat := 2
def CC_VEOL2 : Nat := 3
def CC_VXON : Nat := 4
def CC_VXOFF : Nat := 5
def CC_VCR : Nat := 6

inductive Flow
  | xon
  | xoff
deriving DecidableEq

structure Tty where
  t : Termio
  txoff : Bool
  rxoff : Bool
  txqueue : List UInt8
  rxqueue : List UInt8
  sent : List Flow

def queueSize : Nat := 256

def rxFcTrigger : Nat := 20

def qspace (q : List UInt8) : Nat := queueSize - 1 - q.length

def Termio.isCtl (t : Termio) (code : Nat) (c : UInt8) : Bool := c < 128 && t.t_ctlcodes code == c

structure Poll where
  rx : List UInt8
  tx : Nat

namespace Tty

def setup : Termio where
  l_flags := TLISIG ||| TLICANON ||| TLECHO ||| TLECHOE
  i_flags := TICRNL ||| TIERXFC ||| TISTRIP
  o_flags := TONLCR ||| TOANYFC ||| TOETXFC
  t_ctlcodes := fun i => [3, 8, 10, 3, 17, 19, 13].getD i 0

def init : Tty := ⟨setup, false, false, [], [], []⟩

def receive : Tty → List UInt8 → Tty
  | d, [] => d
  | d, c :: rest =>
    let c := if d.t.i_flags &&& TISTRIP ≠ 0 then c &&& 0x7f else c
    if d.t.o_flags &&& TOETXFC ≠ 0 ∧ d.t.isCtl CC_VXOFF c then receive { d with txoff := true } rest
    else if d.t.o_flags &&& TOETXFC ≠ 0 ∧ d.t.isCtl CC_VXON c then receive { d with txoff := false } rest
    else
      let d := if d.t.o_flags &&& TOETXFC ≠ 0 ∧ d.t.o_flags &&& TOANYFC ≠ 0 then
        { d with txoff := false } else d
      let n := qspace d.rxqueue
      if n > 0 then
        let d := { d with rxqueue := d.rxqueue ++ [c] }
        if d.t.i_flags &&& TIERXFC ≠ 0 ∧ n < rxFcTrigger ∧ d.rxoff = false then
          receive { d with rxoff := true, sent := .xoff :: d.sent } rest
        else receive d rest
      else d

def scandev (d : Tty) (poll : Poll) : Tty :=
  let d := receive d poll.rx
  if d.txoff then d else { d with txqueue := d.txqueue.drop poll.tx }

/-- The inner loop of `termio_write`, which gives up with less than two places, and the bytes left over. -/
def fill (d : Tty) : List UInt8 → Tty × List UInt8
  | [] => (d, [])
  | c :: rest =>
    if qspace d.txqueue ≥ 2 then
      let cr := if d.t.o_flags &&& TONLCR ≠ 0 ∧ d.t.isCtl CC_VEOL c then [d.t.t_ctlcodes CC_VCR] else []
      fill { d with txqueue := d.txqueue ++ cr ++ [c] } rest
    else (d, c :: rest)

/-- The test of the flow control before `termio_read` takes a byte. -/
def release (d : Tty) : Tty :=
  if d.t.i_flags &&& TIERXFC ≠ 0 ∧ d.rxqueue.length < queueSize - rxFcTrigger ∧ d.rxoff = true then
    { d with rxoff := false, sent := .xon :: d.sent }
  else d

def newline (d : Tty) (c : UInt8) : UInt8 :=
  if d.t.i_flags &&& TICRNL ≠ 0 ∧ d.t.isCtl CC_VCR c then d.t.t_ctlcodes CC_VEOL else c

def erasure (d : Tty) : List UInt8 :=
  if d.t.l_flags &&& TLECHOE ≠ 0 then [8, 32, 8] else if d.t.l_flags &&& TLECHO ≠ 0 then [8] else []

end Tty

/-- `tty_devtable`, and what the scans to come will find at its devices. -/
structure Ttys where
  dev : Nat → Tty
  polls : List (Nat → Poll)

def Ttys.set (s : Ttys) (id : Nat) (d : Tty) : Ttys := { s with dev := Function.update s.dev id d }

def scandevs (s : Ttys) : Option Ttys :=
  match s.polls with
  | [] => none
  | poll :: rest => some ⟨fun i => (s.dev i).scandev (poll i), rest⟩

/-- The wait of `termio_write` for a device to send all it has. -/
def drain (fuel : Nat) (id : Nat) (s : Ttys) : Option Ttys :=
  loop (fun s : Ttys =>
    if (s.dev id).txqueue = [] then some (.leave s)
    else
      match scandevs s with
      | none => none
      | some s => some (.again s)) fuel s

def writeDev (fuel : Nat) (id : Nat) (bytes : List UInt8) (s : Ttys) : Option Ttys :=
  loop (fun (state : Ttys × List UInt8) =>
    match state with
    | (s, []) => some (.leave s)
    | (s, bytes) =>
      let (d, rest) := (s.dev id).fill bytes
      match drain fuel id (s.set id d) with
      | none => none
      | some s => some (.again (s, rest))) fuel (s, bytes)

def termioWrite (fuel n id : Nat) (bytes : List UInt8) (s : Ttys) : Option Ttys :=
  loop (fun (state : Ttys × Nat) =>
    match writeDev fuel state.2 bytes state.1 with
    | none => none
    | some s =>
      let next := if state.2 + 1 < n then state.2 + 1 else 0
      some (if next ≠ id then .again (s, next) else .leave s)) fuel (s, id)

/-- One pass of the loop of `termio_read`, with what it has put into the buffer. -/
def readPass (fuel n id len : Nat) (state : Ttys × List UInt8) :
    Option (Pass (Ttys × List UInt8) (Ttys × List UInt8)) :=
  let (s, buf) := state
  if buf.length < len then
    match scandevs s with
    | none => none
    | some s =>
      match (s.dev id).rxqueue with
      | [] => some (.again (s, buf))
      | c :: queue =>
        let d := (s.dev id).release
        let s := s.set id { d with rxqueue := queue }
        let c := d.newline c
        if d.t.l_flags &&& TLICANON ≠ 0 then
          if d.t.isCtl CC_VERASE c then
            if buf = [] then some (.again (s, buf))
            else
              match if d.erasure = [] then some s else termioWrite fuel n id d.erasure s with
              | none => none
              | some s => some (.again (s, buf.dropLast))
          else
            match if d.t.l_flags &&& TLECHO ≠ 0 then termioWrite fuel n id [c] s else some s with
            | none => none
            | some s =>
              if d.t.isCtl CC_VEOL c ∨ d.t.isCtl CC_VEOL2 c then some (.leave (s, buf ++ [c]))
              else some (.again (s, buf ++ [c]))
        else some (.again (s, buf ++ [c]))
  else some (.leave (s, buf))

def termioRead (fuel n id len : Nat) (s : Ttys) : Option (Ttys × List UInt8) :=
  loop (readPass fuel n id len) fuel (s, [])

inductive Command
  | scanon
  | sncanon
  | stermio (arg : Option Termio)
  | gtermio
  | sbreak
  | sflush
  | other

def Tty.ioctl (d : Tty) : Command → Tty
  | .scanon => { d with t.l_flags := d.t.l_flags ||| (TLECHO ||| TLECHOE ||| TLICANON) }
  | .sncanon => { d with t.l_flags := d.t.l_flags &&& ~~~(TLECHO ||| TLECHOE ||| TLICANON) }
  | .stermio (some t) => { d with t := t }
  | .stermio none => d
  | .gtermio => d
  | .sbreak => { d with t.l_flags := d.t.l_flags &&& ~~~(TLECHO ||| TLICANON) }
  | .sflush =>
    let d := { d with rxqueue := [] }
    if d.t.l_flags &&& TIERXFC ≠ 0 ∧ d.rxoff = true then
      { d with rxoff := false, sent := .xon :: d.sent } else d
  | .other => d

inductive TermioCall
  | scan (polls : List (Nat → Poll))
  | read (id len : Nat) (polls : List (Nat → Poll))
  | write (id : Nat) (bytes : List UInt8) (polls : List (Nat → Poll))
  | ioctl (id : Nat) (cmd : Command)

def TermioCall.run (fuel n : Nat) (dev : Nat → Tty) : TermioCall → Option (Nat → Tty)
  | scan polls => (scandevs ⟨dev, polls⟩).map Ttys.dev
  | read id len polls => (termioRead fuel n id len ⟨dev, polls⟩).map fun out => out.1.dev
  | write id bytes polls => (termioWrite fuel n id bytes ⟨dev, polls⟩).map Ttys.dev
  | ioctl id cmd => some (Function.update dev id ((dev id).ioctl cmd))

def Throughout (fuel n : Nat) (holds : (Nat → Tty) → Prop) : (Nat → Tty) → List TermioCall → Prop
  | dev, [] => holds dev
  | dev, call :: rest =>
    holds dev ∧ ∀ dev', call.run fuel n dev = some dev' → Throughout fuel n holds dev' rest

theorem Throughout.first {fuel n : Nat} {holds : (Nat → Tty) → Prop} {dev : Nat → Tty}
    {calls : List TermioCall} (throughout : Throughout fuel n holds dev calls) : holds dev := by
  cases calls with
  | nil => exact throughout
  | cons call rest => exact throughout.1

def EachCall (fuel n : Nat) (holds : (Nat → Tty) → TermioCall → Prop) : (Nat → Tty) → List TermioCall → Prop
  | _, [] => True
  | dev, call :: rest =>
    holds dev call ∧ ∀ dev', call.run fuel n dev = some dev' → EachCall fuel n holds dev' rest

/-- `rxoff` says whether an XOFF has been sent since the last XON. While it does there is a byte for
    `termio_read` to take, and `termio_read` will look at the flow control then. -/
def Tty.Restarts (d : Tty) : Prop :=
  (d.rxoff = true ↔ d.sent.head? = some .xoff) ∧
    (d.rxoff = true → d.rxqueue ≠ [] ∧ d.t.i_flags &&& TIERXFC ≠ 0)

/-- While an XOFF is out the receive queue is flushed with `TLECHO` set only, and the settings keep
    `TIERXFC`. -/
def Safe (dev : Nat → Tty) : TermioCall → Prop
  | .ioctl id .sflush => (dev id).rxoff = true → (dev id).t.l_flags &&& TLECHO ≠ 0
  | .ioctl id (.stermio (some t)) => (dev id).rxoff = true → t.i_flags &&& TIERXFC ≠ 0
  | _ => True

section

variable {d : Tty} {s s' : Ttys} {fuel n id : Nat}

theorem Tty.Restarts.receive (good : d.Restarts) (bytes : List UInt8) : (d.receive bytes).Restarts := by
  induction bytes generalizing d with
  | nil => exact good
  | cons c rest ih =>
    rw [Tty.receive]
    generalize (if d.t.i_flags &&& TISTRIP ≠ 0 then c &&& 0x7f else c) = byte
    simp only
    split
    · exact ih (d := { d with txoff := true }) good
    · split
      · exact ih (d := { d with txoff := false }) good
      · have same : ∃ off, (if d.t.o_flags &&& TOETXFC ≠ 0 ∧ d.t.o_flags &&& TOANYFC ≠ 0 then
          { d with txoff := false }
            else d) = { d with txoff := off } := by
          split
          · exact ⟨false, rfl⟩
          · exact ⟨d.txoff, rfl⟩
        obtain ⟨off, same⟩ := same
        simp only [same]
        split
        · split
          · rename_i flow
            apply ih
            constructor
            · simp
            · intro _
              exact ⟨by simp, flow.1⟩
          · apply ih
            apply And.intro good.1
            intro held
            exact ⟨by simp, (good.2 held).2⟩
        · exact good

theorem Tty.Restarts.scandev (good : d.Restarts) (poll : Poll) : (d.scandev poll).Restarts := by
  have received := good.receive poll.rx
  unfold Tty.scandev
  simp only
  split
  · exact received
  · exact received

theorem Tty.Restarts.fill (good : d.Restarts) (bytes : List UInt8) : (d.fill bytes).1.Restarts := by
  induction bytes generalizing d with
  | nil => exact good
  | cons c rest ih =>
    rw [Tty.fill]
    split
    · exact ih good
    · exact good

theorem Tty.Restarts.take (good : d.Restarts) {c : UInt8} {queue : List UInt8}
    (held : d.rxqueue = c :: queue) :
    ({ d.release with rxqueue := queue } : Tty).Restarts := by
  unfold Tty.release
  split
  · constructor
    · simp
    · nofun
  · rename_i kept
    apply And.intro good.1
    intro off
    have on := (good.2 off).2
    refine ⟨?_, on⟩
    rintro rfl
    apply kept
    rw [held]
    exact ⟨on, show 1 < 236 by decide, off⟩

theorem Tty.Restarts.ioctl_iff (good : d.Restarts) (cmd : Command) :
    (d.ioctl cmd).Restarts ↔
      match cmd with
      | .sflush => d.rxoff = true → d.t.l_flags &&& TLECHO ≠ 0
      | .stermio (some t) => d.rxoff = true → t.i_flags &&& TIERXFC ≠ 0
      | _ => True := by
  cases cmd with
  | sflush =>
    simp only [Tty.ioctl]
    by_cases echo : d.t.l_flags &&& TLECHO ≠ 0
    · by_cases off : d.rxoff = true
      · rw [if_pos ⟨echo, off⟩]
        simp [Tty.Restarts, echo]
      · rw [if_neg fun both => off both.2]
        simp only [Tty.Restarts, off] at good ⊢
        simp [← good.1]
    · rw [if_neg fun both => echo both.1]
      simp only [Tty.Restarts, good.1] at good ⊢
      simp [echo]
  | stermio arg =>
    cases arg with
    | none => exact iff_of_true good True.intro
    | some t =>
      simp only [Tty.ioctl, Tty.Restarts]
      constructor
      · exact fun after off => (after.2 off).2
      · exact fun keeps => ⟨good.1, fun off => ⟨(good.2 off).1, keeps off⟩⟩
  | scanon => exact iff_of_true good True.intro
  | sncanon => exact iff_of_true good True.intro
  | gtermio => exact iff_of_true good True.intro
  | sbreak => exact iff_of_true good True.intro
  | other => exact iff_of_true good True.intro

def Ttys.Restart (s : Ttys) : Prop := ∀ i, (s.dev i).Restarts

theorem Ttys.Restart.set (all : s.Restart) {d : Tty} (good : d.Restarts) : (s.set id d).Restart := by
  intro i
  show (Function.update s.dev id d i).Restarts
  by_cases same : i = id
  · rw [same, Function.update_self]
    exact good
  · rw [Function.update_of_ne same]
    exact all i

theorem Ttys.Restart.scandevs (all : s.Restart) (done : scandevs s = some s') : s'.Restart := by
  unfold Fs.scandevs at done
  split at done
  · cases done
  · cases done
    exact fun i => (all i).scandev _

theorem Ttys.Restart.drain (all : s.Restart) (done : drain fuel id s = some s') : s'.Restart := by
  apply loop_invariant Ttys.Restart Ttys.Restart _ _ done all
  · intro s next again all
    split at again
    · cases again
    · split at again
      · cases again
      · cases again
        exact all.scandevs ‹_›
  · intro s result left all
    split at left
    · cases left
      exact all
    · split at left
      · cases left
      · cases left

theorem Ttys.Restart.writeDev {bytes : List UInt8} (all : s.Restart)
    (done : writeDev fuel id bytes s = some s') :
    s'.Restart := by
  apply loop_invariant (fun state => state.1.Restart) Ttys.Restart _ _ done all
  · rintro ⟨s, bytes⟩ next again all
    cases bytes with
    | nil => cases again
    | cons c rest =>
      simp only at again
      split at again
      · cases again
      · cases again
        exact (all.set ((all id).fill _)).drain ‹_›
  · rintro ⟨s, bytes⟩ result left all
    cases bytes with
    | nil =>
      cases left
      exact all
    | cons c rest =>
      simp only at left
      split at left
      · cases left
      · cases left

theorem Ttys.Restart.write {bytes : List UInt8} (all : s.Restart)
    (done : termioWrite fuel n id bytes s = some s') :
    s'.Restart := by
  apply loop_invariant (fun state => state.1.Restart) Ttys.Restart _ _ done all
  · rintro ⟨s, j⟩ next again all
    simp only at again
    split at again
    · cases again
    · rename_i written
      have kept := all.writeDev written
      generalize (if j + 1 < n then j + 1 else 0) = k at again
      split at again
      · cases again
        exact kept
      · cases again
  · rintro ⟨s, j⟩ result left all
    simp only at left
    split at left
    · cases left
    · rename_i written
      have kept := all.writeDev written
      generalize (if j + 1 < n then j + 1 else 0) = k at left
      split at left
      · cases left
      · cases left
        exact kept

def outcome {σ : Type} : Pass σ σ → σ
  | .again state => state
  | .leave state => state

theorem Ttys.Restart.readPass {len : Nat} {buf : List UInt8}
    {pass : Pass (Ttys × List UInt8) (Ttys × List UInt8)}
    (all : s.Restart) (done : readPass fuel n id len (s, buf) = some pass) : (outcome pass).1.Restart := by
  unfold Fs.readPass at done
  simp only at done
  split at done
  · split at done
    · cases done
    · rename_i s₁ scanned
      have all := all.scandevs scanned
      split at done
      · cases done
        exact all
      · rename_i c queue held
        have all := @Ttys.Restart.set _ id all _ ((all id).take held)
        generalize s₁.set id { (s₁.dev id).release with rxqueue := queue } = s₂ at done all
        split at done
        · split at done
          · split at done
            · cases done
              exact all
            · split at done
              · cases done
              · rename_i s₃ written
                cases done
                split at written
                · cases written
                  exact all
                · exact all.write written
          · split at done
            · cases done
            · rename_i s₃ written
              have all : s₃.Restart := by
                split at written
                · exact all.write written
                · cases written
                  exact all
              split at done
              · cases done
                exact all
              · cases done
                exact all
        · cases done
          exact all
  · cases done
    exact all

theorem Ttys.Restart.read {len : Nat} {out : Ttys × List UInt8} (all : s.Restart)
    (done : termioRead fuel n id len s = some out) : out.1.Restart := by
  apply loop_invariant (fun state => state.1.Restart) (fun out => out.1.Restart) _ _ done all
  · exact fun _ _ again all => all.readPass again
  · exact fun _ _ left all => all.readPass left

theorem call_iff {dev dev' : Nat → Tty} (all : ∀ i, (dev i).Restarts) {call : TermioCall}
    (done : call.run fuel n dev = some dev') : (∀ i, (dev' i).Restarts) ↔ Safe dev call := by
  cases call with
  | scan polls =>
    obtain ⟨s', scanned, rfl⟩ := Option.map_eq_some_iff.mp done
    exact iff_of_true (Ttys.Restart.scandevs (s := ⟨dev, polls⟩) all scanned) True.intro
  | read id len polls =>
    obtain ⟨out, returned, rfl⟩ := Option.map_eq_some_iff.mp done
    exact iff_of_true (Ttys.Restart.read (s := ⟨dev, polls⟩) all returned) True.intro
  | write id bytes polls =>
    obtain ⟨s', returned, rfl⟩ := Option.map_eq_some_iff.mp done
    exact iff_of_true (Ttys.Restart.write (s := ⟨dev, polls⟩) all returned) True.intro
  | ioctl id cmd =>
    cases done
    have one : (∀ i, (Function.update dev id ((dev id).ioctl cmd) i).Restarts) ↔
        ((dev id).ioctl cmd).Restarts := by
      constructor
      · intro after
        have here := after id
        rwa [Function.update_self] at here
      · exact fun here => Ttys.Restart.set (s := ⟨dev, []⟩) all here
    rw [one, (all id).ioctl_iff]
    cases cmd with
    | stermio arg => cases arg <;> exact Iff.rfl
    | _ => exact Iff.rfl

theorem throughout_iff {dev : Nat → Tty} (all : ∀ i, (dev i).Restarts) (calls : List TermioCall) :
    Throughout fuel n (fun dev => ∀ i, (dev i).Restarts) dev calls ↔ EachCall fuel n Safe dev calls := by
  induction calls generalizing dev with
  | nil => exact iff_of_true all True.intro
  | cons call rest ih =>
    constructor
    · intro ⟨_, later⟩
      have safe : Safe dev call := by
        rcases done : call.run fuel n dev with _ | dev'
        · cases call with
          | ioctl id cmd => cases done
          | _ => exact True.intro
        · exact (call_iff all done).mp (later dev' done).first
      apply And.intro safe
      intro dev' done
      exact (ih ((call_iff all done).mpr safe)).mp (later dev' done)
    · intro ⟨safe, later⟩
      apply And.intro all
      intro dev' done
      exact (ih ((call_iff all done).mpr safe)).mpr (later dev' done)

end

theorem init_restarts : Tty.init.Restarts := by
  constructor
  · simp [Tty.init]
  · nofun

theorem terminals_restart_iff (fuel n : Nat) (calls : List TermioCall) :
    Throughout fuel n (fun dev => ∀ i, (dev i).Restarts) (fun _ => Tty.init) calls ↔
      EachCall fuel n Safe (fun _ => Tty.init) calls :=
  throughout_iff (fun _ => init_restarts) calls

def quiet : Nat → Tty := Function.update (fun _ => Tty.init) 0 (Tty.init.ioctl .sncanon)

def flooded : Nat → Tty := fun i => (quiet i).scandev ⟨List.replicate 240 97, 0⟩

abbrev silent : Termio := (Tty.init.ioctl .sncanon).t

theorem receive_letter {rxoff : Bool} {tx q rest : List UInt8} {sent : List Flow} (room : qspace q > 0) :
    ∃ sent', Tty.receive ⟨silent, false, rxoff, tx, q, sent⟩ (97 :: rest) =
      Tty.receive ⟨silent, false, rxoff || decide (qspace q < rxFcTrigger), tx, q ++ [97], sent'⟩ rest := by
  have off : ¬ (silent.o_flags &&& TOETXFC ≠ 0 ∧ silent.isCtl CC_VXOFF ((97 : UInt8) &&& 0x7f)) := by decide
  have on : ¬ (silent.o_flags &&& TOETXFC ≠ 0 ∧ silent.isCtl CC_VXON ((97 : UInt8) &&& 0x7f)) := by decide
  rw [Tty.receive, if_pos (show silent.i_flags &&& TISTRIP ≠ 0 by decide), if_neg off, if_neg on,
    if_pos (show silent.o_flags &&& TOETXFC ≠ 0 ∧ silent.o_flags &&& TOANYFC ≠ 0 by decide)]
  dsimp only
  rw [if_pos room]
  by_cases full : qspace q < rxFcTrigger ∧ rxoff = false
  · rw [if_pos ⟨show silent.i_flags &&& TIERXFC ≠ 0 by decide, full⟩, decide_eq_true full.1, Bool.or_true]
    exact ⟨_, rfl⟩
  · rw [if_neg fun test => full test.2]
    have same : (rxoff || decide (qspace q < rxFcTrigger)) = rxoff := by
      cases rxoff with
      | true => rfl
      | false => exact decide_eq_false fun less => full ⟨less, rfl⟩
    rw [same]
    exact ⟨_, rfl⟩

theorem receive_letters (k : Nat) {rxoff : Bool} {tx q : List UInt8} {sent : List Flow}
    (count : q.length + k = 240) (last : k = 0 → rxoff = true) :
    ∃ q' sent', Tty.receive ⟨silent, false, rxoff, tx, q, sent⟩
    (List.replicate k 97) = ⟨silent, false, true, tx, q', sent'⟩ := by
  induction k generalizing rxoff q sent with
  | zero =>
    rw [last rfl]
    exact ⟨q, sent, rfl⟩
  | succ k ih =>
    have room : qspace q > 0 := by
      simp only [qspace, queueSize]
      omega
    obtain ⟨sent', step⟩ := @receive_letter rxoff tx q (List.replicate k 97) sent room
    rw [List.replicate_succ, step]
    refine ih (by rw [List.length_append, List.length_singleton]; omega) fun done => ?_
    have full : qspace q < rxFcTrigger := by
      simp only [qspace, queueSize, rxFcTrigger]
      omega
    rw [decide_eq_true full, Bool.or_true]

theorem flooded_eq : ∃ q sent, flooded 0 = ⟨silent, false, true, [], q, sent⟩ := by
  have start : quiet 0 = ⟨silent, false, false, [], [], []⟩ := rfl
  obtain ⟨q, sent, received⟩ := @receive_letters 240 false [] [] [] rfl (by decide)
  refine ⟨q, sent, ?_⟩
  simp only [flooded, start, Tty.scandev, received]
  rfl

/-- Echo is turned off, the queue fills until an XOFF is sent, and it is flushed. -/
theorem flush_keeps_xoff : ¬ Throughout 1 1 (fun dev => ∀ i, (dev i).Restarts) (fun _ => Tty.init)
    [.ioctl 0 .sncanon, .scan [fun _ => ⟨List.replicate 240 97, 0⟩], .ioctl 0 .sflush] := by
  intro throughout
  have later := throughout.2 quiet rfl
  have full := later.2 flooded rfl
  have flushed := full.2 (Function.update flooded 0 ((flooded 0).ioctl .sflush)) rfl
  have good := flushed 0
  rw [Function.update_self] at good
  have off : ((flooded 0).ioctl .sflush).rxoff = true := by
    obtain ⟨q, sent, state⟩ := flooded_eq
    rw [state, Tty.ioctl]
    have unsent : ¬ (silent.l_flags &&& TIERXFC ≠ 0) := by decide
    exact congrArg Tty.rxoff (if_neg fun test => unsent test.1)
  have empty : ((flooded 0).ioctl .sflush).rxqueue = [] := by
    rw [Tty.ioctl]
    split <;> rfl
  exact (good.2 off).1 empty

end Embryo.Fs
