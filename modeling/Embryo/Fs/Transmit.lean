import Embryo.Fs.Termio
import Embryo.Lib.Queue

namespace Embryo.Fs

open Embryo.Machine Embryo.Lib

def EPERM : Nat := 1

def ttyDevMax : Nat := 8

/-- A byte handed to `tty_tx_byte`, by `termio_tx_noq` or out of the transmit queue. -/
inductive Sent where
  | noq (c : UInt8)
  | queued (c : UInt8)
deriving DecidableEq

def Sent.byte : Sent → UInt8
  | noq c => c
  | queued c => c

def Sent.atOnce : Sent → Option UInt8
  | noq c => some c
  | queued _ => none

def Sent.fromQueue : Sent → Option UInt8
  | noq _ => none
  | queued c => some c

def Flow.code (t : Termio) : Flow → UInt8
  | xon => t.t_ctlcodes CC_VXON
  | xoff => t.t_ctlcodes CC_VXOFF

/-- The bytes that the first loop of `termio_scandev` hands to `termio_tx_noq`. -/
def Tty.flows (d : Tty) (bytes : List UInt8) : List Sent :=
  ((d.receive bytes).sent.take ((d.receive bytes).sent.length - d.sent.length)).reverse.map
    fun flow => .noq (flow.code d.t)

structure Line where
  tty : Tty
  txqueue : Queue
  log : List Sent

/-- The second loop of `termio_scandev`, for a device that is ready so often. -/
def Line.send : Nat → Nat → Line → Option Line
  | n + 1, ready + 1, l =>
    match l.txqueue.get with
    | none => none
    | some (u, q) => send n ready { l with txqueue := q, log := l.log ++ [.queued u] }
  | _, _, l => some l

/-- `termio_scandev`, without a result where it waits for ever. -/
def Line.scandev (l : Line) (poll : Poll) : Option Line :=
  let l := { l with tty := l.tty.receive poll.rx, log := l.log ++ l.tty.flows poll.rx }
  if l.tty.txoff then some l else l.send l.txqueue.used poll.tx

/-- The inner loop of `termio_write`, which counts the free places on its own, and the bytes left over. -/
def Line.fill : Nat → Line → List UInt8 → Option (Line × List UInt8)
  | _, l, [] => some (l, [])
  | n, l, c :: rest =>
    if n ≥ 2 then
      let eol := l.tty.t.o_flags &&& TONLCR ≠ 0 ∧ l.tty.t.isCtl CC_VEOL c
      match if eol then l.txqueue.put (l.tty.t.t_ctlcodes CC_VCR) else some l.txqueue with
      | none => none
      | some q =>
        match q.put c with
        | none => none
        | some q => fill (if eol then n - 2 else n - 1) { l with txqueue := q } rest
    else some (l, c :: rest)

structure Lines where
  line : Nat → Line
  polls : List (Nat → Poll)

def Lines.set (s : Lines) (id : Nat) (l : Line) : Lines := { s with line := Function.update s.line id l }

def sweep {α : Type} (step : Nat → α → Option α) (n : Nat) (cells : Nat → α) : Option (Nat → α) :=
  (List.range n).foldlM (fun cells i => (step i (cells i)).map (Function.update cells i)) cells

/-- How a call ends: the inner `none` is for one that waits for ever in `Qput` or `Qget`, the outer
    for one that still runs when there is no further scan. -/
abbrev Ends (α : Type) := Option (Option α)

namespace Lines

def scandevs (n : Nat) (s : Lines) : Ends Lines :=
  match s.polls with
  | [] => none
  | poll :: rest => some ((sweep (fun i l => l.scandev (poll i)) n s.line).map (⟨·, rest⟩))

/-- The wait of `termio_write` for a device to send all it has. -/
def drain (fuel n id : Nat) (s : Lines) : Ends Lines :=
  loop (fun s : Lines =>
    if (s.line id).txqueue.isempty then some (.leave (some s))
    else
      match s.scandevs n with
      | none => none
      | some none => some (.leave none)
      | some (some s) => some (.again s)) fuel s

def writeDev (fuel n id : Nat) (bytes : List UInt8) (s : Lines) : Ends (Lines × Nat) :=
  loop (fun (s, ofs, rest) =>
    if rest = [] then some (.leave (some (s, ofs)))
    else
      match (s.line id).fill (s.line id).txqueue.space rest with
      | none => some (.leave none)
      | some (l, left) =>
        match (s.set id l).drain fuel n id with
        | none => none
        | some none => some (.leave none)
        | some (some s) => some (.again (s, ofs + (rest.length - left.length), left))) fuel (s, 0, bytes)

end Lines

structure Written where
  lines : Lines
  ret : Int
  errno : Option Nat

/-- `termio_write` with `n` devices set up, to the device of the file or to all of them from there
    on and round. -/
def Lines.termioWrite (both : Bool) (fuel n : Nat) (data : Option Nat) (bytes : List UInt8)
    (s : Lines) : Ends Written :=
  match data with
  | none => some (some ⟨s, -1, some EPERM⟩)
  | some devid =>
    if devid ≥ ttyDevMax then some (some ⟨s, -1, some EPERM⟩)
    else if devid ≥ n then some (some ⟨s, -1, some EPERM⟩)
    else
      loop (fun (s, dev) =>
        match Lines.writeDev fuel n dev bytes s with
        | none => none
        | some none => some (.leave none)
        | some (some (s, ofs)) =>
          let next := if dev + 1 < n then dev + 1 else 0
          some (if both ∧ next ≠ devid then .again (s, next) else .leave (some ⟨s, ofs, none⟩)))
            fuel (s, devid)

def expand (t : Termio) (bytes : List UInt8) : List UInt8 :=
  bytes.flatMap fun c => if t.o_flags &&& TONLCR ≠ 0 ∧ c = t.t_ctlcodes CC_VEOL then
    [t.t_ctlcodes CC_VCR, c] else [c]

/-- Everything a device was or will be handed out of its queue, if nothing more is put there. -/
def Line.stream (l : Line) : List UInt8 := l.log.filterMap Sent.fromQueue ++ l.txqueue.contents

def Line.noqs (l : Line) : List UInt8 := l.log.filterMap Sent.atOnce

def Flows (l l' : Line) : Prop :=
  (l'.tty.rxoff = l.tty.rxoff ∧ l'.noqs = l.noqs) ∨
    (l.tty.rxoff = false ∧ l'.tty.rxoff = true ∧ l.tty.t.i_flags &&& TIERXFC ≠ 0 ∧
      l'.noqs = l.noqs ++ [l.tty.t.t_ctlcodes CC_VXOFF])

structure Serves (l l' : Line) (put : List UInt8) : Prop where
  settings : l'.tty.t = l.tty.t
  limit : l'.txqueue.limit = l.txqueue.limit
  stream : l'.stream = l.stream ++ put
  flows : Flows l l'
  grows : l.log <+: l'.log
  fewer : put = [] → l'.txqueue.count ≤ l.txqueue.count

section

variable {l l' l'' : Line} {s s' : Lines} {put more bytes : List UInt8} {fuel n id : Nat}

theorem Flows.trans (first : Flows l l') (second : Flows l' l'') (settings : l'.tty.t = l.tty.t) :
    Flows l l'' := by
  rcases first with ⟨off, same⟩ | ⟨off, on, flow, noqs⟩
  · rcases second with ⟨off', same'⟩ | ⟨off', on', flow', noqs'⟩
    · exact .inl ⟨off'.trans off, same'.trans same⟩
    · exact .inr ⟨off ▸ off', on', settings ▸ flow', by rw [noqs', same, settings]⟩
  · rcases second with ⟨off', same'⟩ | ⟨off', -⟩
    · exact .inr ⟨off, off'.trans on, flow, same'.trans noqs⟩
    · rw [on] at off'
      cases off'

theorem Serves.refl (l : Line) : Serves l l [] :=
  ⟨rfl, rfl, (List.append_nil _).symm, .inl ⟨rfl, rfl⟩, List.prefix_rfl, fun _ => Nat.le_refl _⟩

theorem Serves.trans (first : Serves l l' put) (second : Serves l' l'' more) :
    Serves l l'' (put ++ more) where
  settings := second.settings.trans first.settings
  limit := second.limit.trans first.limit
  stream := by rw [second.stream, first.stream, List.append_assoc]
  flows := first.flows.trans second.flows first.settings
  grows := first.grows.trans second.grows
  fewer nothing := by
    obtain ⟨first', second'⟩ := List.append_eq_nil_iff.mp nothing
    exact (second.fewer second').trans (first.fewer first')

theorem receive_flows (d : Tty) (bytes : List UInt8) :
    (d.receive bytes).t = d.t ∧ (((d.receive bytes).rxoff = d.rxoff ∧ (d.receive bytes).sent = d.sent) ∨
      (d.rxoff = false ∧ (d.receive bytes).rxoff = true ∧ d.t.i_flags &&& TIERXFC ≠ 0 ∧
        (d.receive bytes).sent = .xoff :: d.sent)) := by
  induction bytes generalizing d with
  | nil => exact ⟨rfl, .inl ⟨rfl, rfl⟩⟩
  | cons c rest ih =>
    rw [Tty.receive]
    generalize (if d.t.i_flags &&& TISTRIP ≠ 0 then c &&& 0x7f else c) = byte
    simp only
    split
    · exact ih { d with txoff := true }
    split
    · exact ih { d with txoff := false }
    obtain ⟨off, same⟩ : ∃ off, (if d.t.o_flags &&& TOETXFC ≠ 0 ∧
      d.t.o_flags &&& TOANYFC ≠ 0 then { d with txoff := false } else d) =
        { d with txoff := off } := by
      split
      · exact ⟨false, rfl⟩
      · exact ⟨d.txoff, rfl⟩
    simp only [same]
    split
    · split
      · rename_i flow
        obtain ⟨settings, flows⟩ :=
          ih { d with txoff := off, rxqueue := d.rxqueue ++ [byte], rxoff := true, sent := .xoff :: d.sent }
        refine ⟨settings, .inr ?_⟩
        rcases flows with ⟨on, sent⟩ | ⟨absurd', -⟩
        · exact ⟨flow.2.2, on, flow.1, sent⟩
        · cases absurd'
      · exact ih { d with txoff := off, rxqueue := d.rxqueue ++ [byte] }
    · exact ⟨rfl, .inl ⟨rfl, rfl⟩⟩

theorem receive_serves (l : Line) (bytes : List UInt8) :
    Serves l { l with tty := l.tty.receive bytes, log := l.log ++ l.tty.flows bytes } [] := by
  obtain ⟨settings, flows⟩ := receive_flows l.tty bytes
  rcases flows with ⟨off, sent⟩ | ⟨off, on, flow, sent⟩
  · have none : l.tty.flows bytes = [] := by
      rw [Tty.flows, sent, Nat.sub_self, List.take_zero, List.reverse_nil, List.map_nil]
    rw [none, List.append_nil]
    exact ⟨settings, rfl, (List.append_nil _).symm, .inl ⟨off, rfl⟩, List.prefix_rfl, fun _ => Nat.le_refl _⟩
  · have one : l.tty.flows bytes = [.noq (l.tty.t.t_ctlcodes CC_VXOFF)] := by
      rw [Tty.flows, sent, List.length_cons, Nat.add_sub_cancel_left]
      rfl
    rw [one]
    refine ⟨settings, rfl, ?_, .inr ⟨off, on, flow, ?_⟩, List.prefix_append _ _, fun _ => Nat.le_refl _⟩
    · simp [Line.stream, Sent.fromQueue]
    · simp [Line.noqs, Sent.atOnce]

theorem send_serves (ready : Nat) (counted : n ≤ l.txqueue.count) :
    ∃ l', l.send n ready = some l' ∧ Serves l l' [] := by
  induction n generalizing l ready with
  | zero => exact ⟨l, by simp [Line.send], .refl l⟩
  | succ n ih =>
    cases ready with
    | zero => exact ⟨l, by simp [Line.send], .refl l⟩
    | succ ready =>
      obtain ⟨u, q, taken, contents, limit⟩ := l.txqueue.get_contents (by omega)
      have one : l.txqueue.count = q.count + 1 := by
        rw [← Queue.contents_length, contents, List.length_cons, Queue.contents_length]
      obtain ⟨l', sent, serves⟩ := ih (l := { l with txqueue := q, log := l.log ++ [.queued u] })
        ready (by simp only; omega)
      have first : Serves l { l with txqueue := q, log := l.log ++ [.queued u] } [] := by
        refine ⟨rfl, limit, ?_, .inl ⟨rfl, ?_⟩, List.prefix_append _ _, fun _ => ?_⟩
        · simp [Line.stream, contents, Sent.fromQueue]
        · simp [Line.noqs, Sent.atOnce]
        · simp only
          omega
      exact ⟨l', by rw [Line.send, taken]; exact sent, first.trans serves⟩

theorem scandev_serves (l : Line) (poll : Poll) : ∃ l', l.scandev poll = some l' ∧ Serves l l' [] := by
  have received := receive_serves l poll.rx
  rw [Line.scandev]
  split
  · exact ⟨_, rfl, received⟩
  · obtain ⟨l', sent, serves⟩ := send_serves poll.tx (Nat.le_refl _)
    exact ⟨l', sent, received.trans serves⟩

theorem sweep_each {α : Type} (step : Nat → α → Option α) (related : Nat → α → α → Prop) (cells : Nat → α)
    (each : ∀ i, ∃ cell, step i (cells i) = some cell ∧ related i (cells i) cell) (n : Nat) :
    ∃ cells', sweep step n cells = some cells' ∧ (∀ i < n, related i (cells i) (cells' i)) ∧
      ∀ i, n ≤ i → cells' i = cells i := by
  induction n with
  | zero => exact ⟨cells, rfl, fun i below => absurd below (Nat.not_lt_zero i), fun i _ => rfl⟩
  | succ n ih =>
    obtain ⟨cells', swept, relates, kept⟩ := ih
    obtain ⟨cell, stepped, last⟩ := each n
    refine ⟨Function.update cells' n cell, ?_, fun i below => ?_, fun i above => ?_⟩
    · rw [sweep, List.range_succ, List.foldlM_append, ← sweep, swept]
      simp [kept n (Nat.le_refl n), stepped]
    · by_cases here : i = n
      · rw [here, Function.update_self]
        exact last
      · rw [Function.update_of_ne here]
        exact relates i (by omega)
    · rw [Function.update_of_ne (by omega), kept i (by omega)]

theorem scandevs_serves {out : Option Lines} (done : s.scandevs n = some out) :
    ∃ s', out = some s' ∧ ∀ i, Serves (s.line i) (s'.line i) [] := by
  rw [Lines.scandevs] at done
  split at done
  · cases done
  · rename_i poll rest _
    obtain ⟨line', swept, serves, kept⟩ := sweep_each (fun i l => l.scandev (poll i))
      (fun _ l l' => Serves l l' [])
      s.line (fun i => scandev_serves (s.line i) (poll i)) n
    rw [swept] at done
    cases done
    refine ⟨_, rfl, fun i => ?_⟩
    rcases Nat.lt_or_ge i n with below | above
    · exact serves i below
    · exact (kept i above).symm ▸ .refl _

theorem drain_serves {out : Option Lines} (done : s.drain fuel n id = some out) :
    ∃ s', out = some s' ∧ (∀ i, Serves (s.line i) (s'.line i) []) ∧ (s'.line id).txqueue.count = 0 := by
  refine loop_invariant (fun s' : Lines => ∀ i, Serves (s.line i) (s'.line i) [])
    (fun out => ∃ s', out = some s' ∧ (∀ i, Serves (s.line i) (s'.line i) []) ∧
      (s'.line id).txqueue.count = 0) ?_ ?_ done fun i => .refl _
  · intro s' next again serves
    split_ifs at again
    · cases again
    split at again
    · cases again
    · cases again
    · rename_i scanned
      cases again
      obtain ⟨_, same, scans⟩ := scandevs_serves scanned
      cases same
      exact fun i => (serves i).trans (scans i)
  · intro s' result left serves
    split_ifs at left with empty
    · cases left
      exact ⟨s', rfl, serves, beq_iff_eq.mp empty⟩
    · split at left
      · cases left
      · rename_i scanned
        obtain ⟨_, same, -⟩ := scandevs_serves scanned
        cases same
      · cases left

theorem put_serves (u : UInt8) (room : l.txqueue.count < l.txqueue.limit) :
    ∃ q, l.txqueue.put u = some q ∧ q.count = l.txqueue.count + 1 ∧ Serves l { l with txqueue := q } [u] := by
  obtain ⟨q, taken, contents, one, limit⟩ := l.txqueue.put_contents u room
  refine ⟨q, taken, one, rfl, limit, ?_, .inl ⟨rfl, rfl⟩, List.prefix_rfl, nofun⟩
  simp [Line.stream, contents]

def echoed (t : Termio) (c : UInt8) : List UInt8 :=
  if t.o_flags &&& TONLCR ≠ 0 ∧ t.isCtl CC_VEOL c then [t.t_ctlcodes CC_VCR, c] else [c]

theorem fill_serves (space : n ≤ l.txqueue.space) (bytes : List UInt8) :
    ∃ l' taken rest, l.fill n bytes = some (l', rest) ∧ bytes = taken ++ rest ∧
      Serves l l' (taken.flatMap (echoed l.tty.t)) := by
  induction bytes generalizing l n with
  | nil => exact ⟨l, [], [], by simp [Line.fill], rfl, .refl l⟩
  | cons c bytes ih =>
    by_cases two : n ≥ 2
    · have room : l.txqueue.count + 2 ≤ l.txqueue.limit := by
        rw [Queue.space] at space
        omega
      by_cases eol : l.tty.t.o_flags &&& TONLCR ≠ 0 ∧ l.tty.t.isCtl CC_VEOL c
      · obtain ⟨q, cr, counted, serves⟩ := put_serves (l.tty.t.t_ctlcodes CC_VCR)
          (show l.txqueue.count < l.txqueue.limit by omega)
        have limit : q.limit = l.txqueue.limit := serves.limit
        obtain ⟨q', put, counted', serves'⟩ := put_serves (l := { l with txqueue := q }) c
          (show q.count < q.limit by omega)
        have limit' : q'.limit = q.limit := serves'.limit
        have counted' : q'.count = q.count + 1 := counted'
        obtain ⟨l', taken, rest, filled, split, more⟩ := ih (n := n - 2) (l := { l with txqueue := q' }) (by
          simp only [Queue.space] at space ⊢
          omega)
        refine ⟨l', c :: taken, rest, ?_, by rw [split, List.cons_append], ?_⟩
        · rw [Line.fill, if_pos two]
          simp only [if_pos eol, cr, put]
          exact filled
        · rw [List.flatMap_cons, echoed, if_pos eol]
          exact (serves.trans serves').trans more
      · obtain ⟨q, put, counted, serves⟩ := put_serves c (show l.txqueue.count < l.txqueue.limit by omega)
        obtain ⟨l', taken, rest, filled, split, more⟩ := ih (n := n - 1) (l := { l with txqueue := q }) (by
          have limit := serves.limit
          simp only [Queue.space] at space limit ⊢
          omega)
        refine ⟨l', c :: taken, rest, ?_, by rw [split, List.cons_append], ?_⟩
        · rw [Line.fill, if_pos two]
          simp only [if_neg eol, put]
          exact filled
        · rw [List.flatMap_cons, echoed, if_neg eol]
          exact serves.trans more
    · exact ⟨l, [], c :: bytes, by simp [Line.fill, two], rfl, .refl l⟩

@[simp] theorem Lines.set_line_same : (s.set id l).line id = l := Function.update_self ..

@[simp] theorem Lines.set_line_other {i : Nat} (apart : i ≠ id) : (s.set id l).line i = s.line i :=
  Function.update_of_ne apart ..

structure Sends (id : Nat) (bytes : List UInt8) (s s' : Lines) : Prop where
  others : ∀ i, i ≠ id → Serves (s.line i) (s'.line i) []
  own : Serves (s.line id) (s'.line id) (bytes.flatMap (echoed (s.line id).tty.t))
  sent : bytes ≠ [] → (s'.line id).txqueue.count = 0

theorem Sends.none : Sends id [] s s := ⟨fun _ _ => .refl _, .refl _, fun wrong => absurd rfl wrong⟩

theorem writeDev_sends {out : Option (Lines × Nat)} (done : s.writeDev fuel n id bytes = some out) :
    ∃ s', out = some (s', bytes.length) ∧ Sends id bytes s s' := by
  refine loop_invariant (fun state : Lines × Nat × List UInt8 =>
      ∃ taken, bytes = taken ++ state.2.2 ∧ state.2.1 = taken.length ∧ Sends id taken s state.1)
    (fun out => ∃ s', out = some (s', bytes.length) ∧ Sends id bytes s s') ?_ ?_ done ⟨[], rfl, rfl, .none⟩
  · rintro ⟨s', ofs, rest⟩ ⟨s'', ofs', rest'⟩ again ⟨taken, split, counted, sends⟩
    dsimp only at again split counted sends
    split_ifs at again
    · cases again
    obtain ⟨l, more, left, filled, rest_split, fills⟩ :=
      fill_serves (Nat.le_refl (s'.line id).txqueue.space) rest
    simp only [filled] at again
    split at again
    · cases again
    · cases again
    · rename_i drained
      cases again
      obtain ⟨_, same, drains, empty⟩ := drain_serves drained
      cases same
      refine ⟨taken ++ more, by
        rw [split, rest_split, List.append_assoc], ?_, fun i apart => ?_, ?_, fun _ => empty⟩
      · rw [rest_split, counted, List.length_append, List.length_append]
        dsimp only
        omega
      · have scans := drains i
        rw [Lines.set_line_other apart] at scans
        exact (sends.others i apart).trans scans
      · have scans := drains id
        rw [Lines.set_line_same] at scans
        rw [sends.own.settings] at fills
        have all := (sends.own.trans fills).trans scans
        rwa [List.append_nil, ← List.flatMap_append] at all
  · rintro ⟨s', ofs, rest⟩ result left ⟨taken, split, counted, sends⟩
    dsimp only at left split counted sends
    split_ifs at left with ended
    · cases left
      rw [ended, List.append_nil] at split
      subst split
      exact ⟨s', by rw [counted], sends⟩
    · obtain ⟨l, more, left', filled, -⟩ := fill_serves (Nat.le_refl (s'.line id).txqueue.space) rest
      simp only [filled] at left
      split at left
      · cases left
      · rename_i drained
        obtain ⟨_, same, -⟩ := drain_serves drained
        cases same
      · cases left

def Delivered (id : Nat) (bytes : List UInt8) (s s' : Lines) : Prop :=
  (s'.line id).txqueue.count = 0 ∧ Serves (s.line id) (s'.line id) (bytes.flatMap (echoed (s.line id).tty.t))

theorem delivered_next {s'' : Lines} {dev : Nat} (filled : bytes ≠ [])
    (held : s' = s ∧ dev = id ∨ dev ≠ id ∧ Delivered id bytes s s')
    (sends : Sends dev bytes s' s'') : Delivered id bytes s s'' := by
  rcases held with ⟨rfl, rfl⟩ | ⟨apart, empty, serves⟩
  · exact ⟨sends.sent filled, sends.own⟩
  · have scans := sends.others id (Ne.symm apart)
    have fewer := scans.fewer rfl
    have all := serves.trans scans
    rw [List.append_nil] at all
    exact ⟨by omega, all⟩

theorem write_delivers {both : Bool} {out : Option Written} (opened : id < ttyDevMax)
    (ready : id < n) (filled : bytes ≠ [])
    (done : s.termioWrite both fuel n (some id) bytes = some out) :
    ∃ s', out = some ⟨s', bytes.length, none⟩ ∧ Delivered id bytes s s' := by
  simp only [Lines.termioWrite, if_neg (not_le.mpr opened), if_neg (not_le.mpr ready)] at done
  refine loop_invariant (fun state : Lines × Nat => state.1 = s ∧ state.2 = id ∨ state.2 ≠ id ∧
    Delivered id bytes s state.1)
    (fun out => ∃ s', out = some ⟨s', bytes.length, none⟩ ∧ Delivered id bytes s s') ?_ ?_ done
      (.inl ⟨rfl, rfl⟩)
  · rintro ⟨s', dev⟩ ⟨s'', dev'⟩ again held
    dsimp only at again held
    split at again
    · cases again
    · cases again
    · rename_i written
      obtain ⟨_, same, sends⟩ := writeDev_sends written
      cases same
      generalize (if dev + 1 < n then dev + 1 else 0) = next at again
      split_ifs at again with round
      · cases again
        exact .inr ⟨round.2, delivered_next filled held sends⟩
      · cases again
  · rintro ⟨s', dev⟩ result left held
    dsimp only at left held
    split at left
    · cases left
    · rename_i written
      obtain ⟨_, same, -⟩ := writeDev_sends written
      cases same
    · rename_i written
      obtain ⟨_, same, sends⟩ := writeDev_sends written
      cases same
      generalize (if dev + 1 < n then dev + 1 else 0) = next at left
      split_ifs at left
      · cases left
      · cases left
        exact ⟨_, rfl, delivered_next filled held sends⟩

theorem echoed_expand (t : Termio) (plain : t.t_ctlcodes CC_VEOL < 128) (bytes : List UInt8) :
    bytes.flatMap (echoed t) = expand t bytes := by
  rw [expand]
  refine List.flatMap_congr fun c _ => if_congr (and_congr_right fun _ => ?_) rfl rfl
  rw [Termio.isCtl, Bool.and_eq_true, decide_eq_true_iff, beq_iff_eq]
  constructor
  · exact fun both => both.2.symm
  · rintro rfl
    exact ⟨plain, rfl⟩

def Line.view (l : Line) : Tty := { l.tty with txqueue := l.txqueue.contents }

theorem receive_view (d : Tty) (queue bytes : List UInt8) :
    ({ d with txqueue := queue } : Tty).receive bytes = { d.receive bytes with txqueue := queue } := by
  induction bytes generalizing d with
  | nil => rfl
  | cons c rest ih =>
    rw [Tty.receive, Tty.receive]
    generalize (if d.t.i_flags &&& TISTRIP ≠ 0 then c &&& 0x7f else c) = byte
    simp only
    split
    · exact ih { d with txoff := true }
    split
    · exact ih { d with txoff := false }
    split
    · split
      · split
        · exact ih { d with
            txoff := false, rxqueue := d.rxqueue ++ [byte], rxoff := true, sent := .xoff :: d.sent }
        · exact ih { d with txoff := false, rxqueue := d.rxqueue ++ [byte] }
      · rfl
    · split
      · split
        · exact ih { d with rxqueue := d.rxqueue ++ [byte], rxoff := true, sent := .xoff :: d.sent }
        · exact ih { d with rxqueue := d.rxqueue ++ [byte] }
      · rfl

theorem send_view (ready : Nat) (counted : n = l.txqueue.count) :
    ∃ l', l.send n ready = some l' ∧ l'.view = { l.view with txqueue := l.txqueue.contents.drop ready } := by
  induction n generalizing l ready with
  | zero =>
    have nothing : l.txqueue.contents = [] := Queue.contents_eq_nil.mpr counted.symm
    exact ⟨l, by simp [Line.send], by rw [Line.view, nothing, List.drop_nil]⟩
  | succ n ih =>
    cases ready with
    | zero => exact ⟨l, by simp [Line.send], by rw [List.drop_zero]; rfl⟩
    | succ ready =>
      obtain ⟨u, q, taken, contents, -⟩ := l.txqueue.get_contents (by omega)
      have one : l.txqueue.count = q.count + 1 := by
        rw [← Queue.contents_length, contents, List.length_cons, Queue.contents_length]
      obtain ⟨l', sent, view⟩ := ih (l := { l with txqueue := q, log := l.log ++ [.queued u] })
        ready (by simp only; omega)
      refine ⟨l', by rw [Line.send, taken]; exact sent, view.trans ?_⟩
      rw [contents, List.drop_succ_cons]
      rfl

theorem scandev_view (l : Line) (poll : Poll) :
    ∃ l', l.scandev poll = some l' ∧ l'.view = l.view.scandev poll := by
  have seen : l.view.receive poll.rx = { l.tty.receive poll.rx with
    txqueue := l.txqueue.contents } := receive_view ..
  rw [Line.scandev, Tty.scandev, seen]
  simp only
  split
  · exact ⟨_, rfl, rfl⟩
  · obtain ⟨l', sent, view⟩ :=
      send_view (l := { l with tty := l.tty.receive poll.rx, log := l.log ++ l.tty.flows poll.rx })
        poll.tx rfl
    exact ⟨l', sent, view⟩

theorem fill_view (limit : l.txqueue.limit = queueSize - 1) (space : n = l.txqueue.space)
    (bytes : List UInt8) :
    ∃ l' rest, l.fill n bytes = some (l', rest) ∧ l.view.fill bytes = (l'.view, rest) := by
  induction bytes generalizing l n with
  | nil => exact ⟨l, [], by simp [Line.fill], rfl⟩
  | cons c bytes ih =>
    have counted : qspace l.view.txqueue = n := by
      rw [qspace, space, Queue.space, limit]
      exact congrArg _ l.txqueue.contents_length
    by_cases two : n ≥ 2
    · have room : l.txqueue.count + 2 ≤ l.txqueue.limit := by
        rw [Queue.space] at space
        omega
      rw [Line.fill, if_pos two, Tty.fill, counted, if_pos two]
      by_cases eol : l.tty.t.o_flags &&& TONLCR ≠ 0 ∧ l.tty.t.isCtl CC_VEOL c
      · obtain ⟨q, cr, contents, counted, limit'⟩ :=
          l.txqueue.put_contents (l.tty.t.t_ctlcodes CC_VCR) (by omega)
        obtain ⟨q', put, contents', counted', limit''⟩ := q.put_contents c (by omega)
        obtain ⟨l', rest, filled, view⟩ := ih (n := n - 2) (l := { l with txqueue := q' })
          (by simp only; omega)
          (by simp only [Queue.space] at space ⊢; omega)
        refine ⟨l', rest, ?_, ?_⟩
        · simp only [if_pos eol, cr, put]
          exact filled
        · rw [Line.view] at view
          simp only [contents', contents] at view
          change Tty.fill { l.tty with
            txqueue := l.txqueue.contents ++ (if l.tty.t.o_flags &&& TONLCR ≠ 0 ∧ l.tty.t.isCtl CC_VEOL c then
            [l.tty.t.t_ctlcodes CC_VCR] else []) ++ [c] } bytes = _
          rw [if_pos eol]
          exact view
      · obtain ⟨q, put, contents, counted, limit'⟩ := l.txqueue.put_contents c (by omega)
        obtain ⟨l', rest, filled, view⟩ := ih (n := n - 1) (l := { l with txqueue := q })
          (by simp only; omega)
          (by simp only [Queue.space] at space ⊢; omega)
        refine ⟨l', rest, ?_, ?_⟩
        · simp only [if_neg eol, put]
          exact filled
        · rw [Line.view] at view
          simp only [contents] at view
          change Tty.fill { l.tty with
            txqueue := l.txqueue.contents ++ (if l.tty.t.o_flags &&& TONLCR ≠ 0 ∧ l.tty.t.isCtl CC_VEOL c then
            [l.tty.t.t_ctlcodes CC_VCR] else []) ++ [c] } bytes = _
          rw [if_neg eol, List.append_nil]
          exact view
    · exact ⟨l, c :: bytes, by simp [Line.fill, two], by rw [Tty.fill, counted, if_neg two]⟩

structure Lines.View (n : Nat) (s : Lines) (t : Ttys) : Prop where
  dev : ∀ i < n, t.dev i = (s.line i).view
  polls : t.polls = s.polls
  limit : ∀ i < n, (s.line i).txqueue.limit = queueSize - 1

variable {t : Ttys}

theorem Lines.View.set (view : Lines.View n s t) {d : Tty} (here : d = l.view)
    (limit : l.txqueue.limit = queueSize - 1) :
    Lines.View n (s.set id l) (t.set id d) where
  dev i below := by
    by_cases own : i = id
    · rw [own, Lines.set_line_same, ← here]
      exact Function.update_self ..
    · rw [Lines.set_line_other own, ← view.dev i below]
      exact Function.update_of_ne own ..
  polls := view.polls
  limit i below := by
    by_cases own : i = id
    · rw [own, Lines.set_line_same, limit]
    · rw [Lines.set_line_other own, view.limit i below]

theorem scandevs_view (view : Lines.View n s t) : s.scandevs n = none ∨
    ∃ s' t', s.scandevs n = some (some s') ∧ scandevs t = some t' ∧ Lines.View n s' t' := by
  rw [Lines.scandevs, Fs.scandevs, view.polls]
  cases s.polls with
  | nil => exact .inl rfl
  | cons poll rest =>
    obtain ⟨line', swept, seen, -⟩ := sweep_each (fun i l => l.scandev (poll i))
      (fun i l l' => l'.view = l.view.scandev (poll i) ∧ l'.txqueue.limit = l.txqueue.limit) s.line
          (fun i => by
        obtain ⟨l', scanned, same⟩ := scandev_view (s.line i) (poll i)
        obtain ⟨l'', scanned', serves⟩ := scandev_serves (s.line i) (poll i)
        rw [scanned] at scanned'
        cases scanned'
        exact ⟨l', scanned, same, serves.limit⟩) n
    simp only [swept]
    refine .inr ⟨⟨line', rest⟩, ⟨_, rest⟩, rfl, rfl, fun i below => ?_, rfl, fun i below => ?_⟩
    · exact (congrArg (Tty.scandev · (poll i)) (view.dev i below)).trans (seen i below).1.symm
    · exact (seen i below).2.trans (view.limit i below)

theorem drain_view (below : id < n) (view : Lines.View n s t) {out : Option Lines}
    (done : s.drain fuel n id = some out) :
    ∃ t', drain fuel id t = some t' ∧ ∃ s', out = some s' ∧ Lines.View n s' t' := by
  refine loop_simulates (Lines.View n) (fun out t' => ∃ s', out = some s' ∧ Lines.View n s' t')
    (fun s t view => ?_) done view
  have empty : (t.dev id).txqueue = [] ↔ (s.line id).txqueue.isempty = true := by
    rw [view.dev id below, Queue.isempty, beq_iff_eq]
    exact Queue.contents_eq_nil
  by_cases ended : (s.line id).txqueue.isempty = true
  · exact .inr (.inr ⟨some s, t, if_pos ended, if_pos (empty.mpr ended), s, rfl, view⟩)
  · simp only [if_neg ended, if_neg (mt empty.mp ended)]
    rcases scandevs_view view with out | ⟨s', t', scanned, scanned', view'⟩
    · exact .inl (by rw [out])
    · exact .inr (.inl ⟨s', t', by rw [scanned], by rw [scanned'], view'⟩)

theorem writeDev_view (below : id < n) (view : Lines.View n s t) {out : Option (Lines × Nat)}
    (done : s.writeDev fuel n id bytes = some out) :
    ∃ t', writeDev fuel id bytes t = some t' ∧ ∃ s' ofs, out = some (s', ofs) ∧ Lines.View n s' t' := by
  refine loop_simulates (fun (state : Lines × Nat × List UInt8) (state' : Ttys × List UInt8) =>
      Lines.View n state.1 state'.1 ∧ state'.2 = state.2.2)
    (fun out t' => ∃ s' ofs, out = some (s', ofs) ∧ Lines.View n s' t') ?_ done ⟨view, rfl⟩
  rintro ⟨s, ofs, rest⟩ ⟨t, rest'⟩ ⟨view, same⟩
  dsimp only at view same
  subst same
  cases rest' with
  | nil => exact .inr (.inr ⟨some (s, ofs), t, rfl, rfl, s, ofs, rfl, view⟩)
  | cons c rest =>
    obtain ⟨l, left, filled, filled'⟩ := fill_view (view.limit id below) rfl (c :: rest)
    obtain ⟨l', taken, left', filled'', split, serves⟩ :=
      fill_serves (Nat.le_refl (s.line id).txqueue.space) (c :: rest)
    rw [filled] at filled''
    cases filled''
    rw [← view.dev id below] at filled'
    have set : Lines.View n (s.set id l) (t.set id l.view) :=
      view.set rfl (serves.limit.trans (view.limit id below))
    simp only [filled, filled', if_neg (List.cons_ne_nil c rest)]
    cases drained : (s.set id l).drain fuel n id with
    | none => exact .inl rfl
    | some out =>
      obtain ⟨t', drained', s', here, view'⟩ := drain_view below set drained
      cases here
      exact .inr (.inl ⟨_, _, rfl, by rw [drained'], view', rfl⟩)

/-- With output to all devices, what a write does to the rings is what it does to the lists, where a
    terminal restarts. -/
theorem termioWrite_view (opened : id < ttyDevMax) (ready : id < n) (view : Lines.View n s t)
    {out : Option Written} (done : s.termioWrite true fuel n (some id) bytes = some out) :
    ∃ t', termioWrite fuel n id bytes t = some t' ∧ ∃ written, out = some written ∧
      Lines.View n written.lines t' := by
  simp only [Lines.termioWrite, if_neg (not_le.mpr opened), if_neg (not_le.mpr ready)] at done
  rw [Fs.termioWrite]
  have start : Lines.View n (s, id).1 (t, id).1 ∧ (t, id).2 = (s, id).2 ∧ (s, id).2 < n := ⟨view, rfl, ready⟩
  refine loop_simulates (fun (state : Lines × Nat) (state' : Ttys × Nat) =>
      Lines.View n state.1 state'.1 ∧ state'.2 = state.2 ∧ state.2 < n)
    (fun out t' => ∃ written, out = some written ∧ Lines.View n written.lines t') ?_ done start
  rintro ⟨s, dev⟩ ⟨t, dev'⟩ ⟨view, same, below⟩
  dsimp only at view same below
  subst same
  cases written : s.writeDev fuel n dev' bytes with
  | none => exact .inl rfl
  | some out =>
    obtain ⟨t', written', s', ofs, here, view'⟩ := writeDev_view below view written
    cases here
    simp only [written', true_and]
    have next : (if dev' + 1 < n then dev' + 1 else 0) < n := by
      split_ifs
      · assumption
      · omega
    by_cases round : (if dev' + 1 < n then dev' + 1 else 0) ≠ id
    · rw [if_pos round, if_pos round]
      exact .inr (.inl ⟨_, _, rfl, rfl, view', rfl, next⟩)
    · rw [if_neg round, if_neg round]
      exact .inr (.inr ⟨_, _, rfl, rfl, _, rfl, view'⟩)

end

/-- A call to write that returns has sent what was in the queue and the string behind it, and
    between these bytes at most the one XOFF of receive flow control. It waits in no `Qput`. -/
theorem termioWrite_sends (both : Bool) (fuel n id : Nat) (bytes : List UInt8) (s : Lines)
    (out : Option Written) (opened : id < ttyDevMax) (ready : id < n) (filled : bytes ≠ [])
    (plain : (s.line id).tty.t.t_ctlcodes CC_VEOL < 128)
    (done : s.termioWrite both fuel n (some id) bytes = some out) :
    ∃ s' sent, out = some ⟨s', bytes.length, none⟩ ∧ (s'.line id).txqueue.contents = [] ∧
      (s'.line id).log = (s.line id).log ++ sent ∧
      sent.filterMap Sent.fromQueue = (s.line id).txqueue.contents ++ expand (s.line id).tty.t bytes ∧
      (sent.filterMap Sent.atOnce = [] ∨ sent.filterMap Sent.atOnce =
        [(s.line id).tty.t.t_ctlcodes CC_VXOFF] ∧
        (s.line id).tty.rxoff = false ∧ (s.line id).tty.t.i_flags &&& TIERXFC ≠ 0) := by
  obtain ⟨s', returned, empty, serves⟩ := write_delivers opened ready filled done
  obtain ⟨sent, log⟩ := serves.grows
  have nothing : (s'.line id).txqueue.contents = [] := Queue.contents_eq_nil.mpr empty
  refine ⟨s', sent, returned, nothing, log.symm, ?_, ?_⟩
  · have stream := serves.stream
    rw [Line.stream, nothing, ← log, List.filterMap_append, List.append_nil, Line.stream,
      List.append_assoc] at stream
    rw [List.append_cancel_left stream, echoed_expand _ plain]
  · rcases serves.flows with ⟨-, noqs⟩ | ⟨off, -, flow, noqs⟩
    · rw [Line.noqs, ← log, List.filterMap_append, Line.noqs] at noqs
      exact .inl (List.append_right_eq_self.mp noqs)
    · rw [Line.noqs, ← log, List.filterMap_append, Line.noqs] at noqs
      exact .inr ⟨List.append_cancel_left noqs, off, flow⟩

def alone (tty : Tty) (txqueue : Queue) (rx : List UInt8) : Lines :=
  ⟨fun _ => ⟨tty, txqueue, []⟩, [fun _ => ⟨rx, 2⟩]⟩

def emptyQueue : Queue := ⟨0, 0, 255, fun _ => 0, ⟨8, rfl⟩, Nat.zero_le 255⟩

theorem newline_sent : ∃ out, (alone Tty.init emptyQueue []).termioWrite true 3 1 (some 0) [10] = some out ∧
    ∃ s' sent, out = some ⟨s', 1, none⟩ ∧ (s'.line 0).txqueue.contents = [] ∧ (s'.line 0).log = [] ++ sent ∧
      sent.filterMap Sent.fromQueue = emptyQueue.contents ++ expand Tty.init.t [10] ∧
      (sent.filterMap Sent.atOnce = [] ∨ sent.filterMap Sent.atOnce = [19] ∧ Tty.init.rxoff = false ∧
        Tty.init.t.i_flags &&& TIERXFC ≠ 0) := by
  have returns : ((alone Tty.init emptyQueue []).termioWrite true 3 1 (some 0) [10]).isSome := by
    decide +kernel
  obtain ⟨out, done⟩ := Option.isSome_iff_exists.mp returns
  exact ⟨out, done, termioWrite_sends true 3 1 0 [10] (alone Tty.init emptyQueue []) out (by decide)
    (by decide) (by decide)
    (by decide) done⟩

def Exact (both : Bool) (fuel n id : Nat) (bytes : List UInt8) (s : Lines) : Prop :=
  ∀ out, s.termioWrite both fuel n (some id) bytes = some out → ∃ s', out = some ⟨s', bytes.length, none⟩ ∧
    (s'.line id).txqueue.contents = [] ∧ (s'.line id).log.map Sent.byte =
      (s.line id).log.map Sent.byte ++ (s.line id).txqueue.contents ++ expand (s.line id).tty.t bytes

def handed (id : Nat) (ends : Ends Written) : Option (List UInt8 × List UInt8) :=
  ends.join.map fun written => ((written.lines.line id).txqueue.contents,
    (written.lines.line id).log.map Sent.byte)

theorem Exact.handed {both : Bool} {fuel n id : Nat} {bytes : List UInt8} {s : Lines}
    (exact' : Exact both fuel n id bytes s) (left sent : List UInt8)
    (run : handed id (s.termioWrite both fuel n (some id) bytes) = some (left, sent)) :
    left = [] ∧ sent = (s.line id).log.map Sent.byte ++ (s.line id).txqueue.contents ++
      expand (s.line id).tty.t bytes := by
  obtain ⟨written, returned, same⟩ := Option.map_eq_some_iff.mp run
  obtain ⟨s', same', empty, log⟩ := exact' _ (Option.join_eq_some_iff.mp returned)
  cases same'
  cases same
  exact ⟨empty, log⟩

def lowline : Termio := { Tty.setup with t_ctlcodes := fun i => [3, 8, 200, 3, 17, 19, 13].getD i 0 }

/-- An XOFF goes out before the string, an empty string leaves the queue as it is, and an end of
    line that is no `char` is not preceded by anything. -/
theorem write_not_exact :
    ¬Exact false 3 1 0 [97] (alone { Tty.init with rxqueue := List.replicate 236 97 } emptyQueue [97]) ∧
    ¬Exact false 3 1 0 [] (alone Tty.init ⟨0, 1, 255, fun _ => 97, ⟨8, rfl⟩, by decide⟩ []) ∧
    ¬Exact false 3 1 0 [200] (alone { Tty.init with t := lowline } emptyQueue []) := by
  refine ⟨fun exact' => ?_, fun exact' => ?_, fun exact' => ?_⟩
  · have wrong := (exact'.handed [] [19, 97] (by decide +kernel)).2
    exact absurd wrong (by decide)
  · have wrong := (exact'.handed [97] [] (by decide +kernel)).1
    cases wrong
  · have wrong := (exact'.handed [] [200] (by decide +kernel)).2
    exact absurd wrong (by decide)

end Embryo.Fs
