import Embryo.Sock.Send

namespace Embryo.Sock

open Embryo.Machine Embryo.Uipc

variable {σ : Type} {E : Env σ} {proto : Proto} {so : SendSide} {dontroute : Bool} {req : SendRequest}

def handedOver (handed : List (Handed σ)) : List Nat :=
  handed.flatMap fun call => (call.top ++ call.control).map Mbuf.addr

theorem addMpLen_addrs {top : Chain} {len : Nat} {e : σ} :
    ((addMpLen E top len e).1).map Mbuf.addr = top.map Mbuf.addr := by
  cases top <;> rfl

theorem markEor_addrs {top : Chain} : (markEor top).map Mbuf.addr = top.map Mbuf.addr := by
  cases top <;> rfl

def Balanced (req : SendRequest) (s : Sending σ) : Prop :=
  (handedOver s.handed ++ (s.top ++ s.control).map Mbuf.addr).Perm
    ((req.top ++ req.control ++ s.got).map Mbuf.addr)

def Clear (s : Sending σ) : Prop := s.mpTop = true → s.top = []

theorem Balanced.more {s s' : Sending σ} {m : Mbuf} (balanced : Balanced req s)
    (top : s'.top.map Mbuf.addr = s.top.map Mbuf.addr ++ [m.addr]) (got : s'.got = s.got ++ [m])
    (control : s'.control = s.control) (handed : s'.handed = s.handed) : Balanced req s' := by
  apply List.perm_iff_count.mpr
  intro a
  have count := balanced.count_eq a
  rw [handed, control, got]
  simp only [List.map_append, List.count_append, top, List.map_cons, List.map_nil] at count ⊢
  omega

theorem Balanced.same {s s' : Sending σ} (balanced : Balanced req s)
    (top : s'.top.map Mbuf.addr = s.top.map Mbuf.addr)
    (got : s'.got = s.got) (control : s'.control = s.control) (handed : s'.handed = s.handed) :
    Balanced req s' := by
  rw [Balanced, List.map_append, top, got, control, handed, ← List.map_append]
  exact balanced

structure Filled (req : SendRequest) (s s' : Sending σ) : Prop where
  balanced : Balanced req s'
  locked : s'.locked = s.locked
  handed : s'.handed = s.handed

theorem fillPass_filled {atomic eor : Bool} {s : Sending σ} (balanced : Balanced req s) (clear : Clear s) :
    (∀ s', fillPass E atomic eor s = some (.again s') → Filled req s s' ∧ Clear s') ∧
      ∀ go s', fillPass E atomic eor s = some (.leave (go, s')) → Filled req s s' := by
  unfold fillPass
  dsimp only
  cases taken : E.take s.top.isEmpty s.e with
  | mk given e =>
    cases given with
    | none =>
      refine ⟨fun s' again => ?_, fun go s' leave => ?_⟩
      · cases again
      · cases leave
        exact ⟨balanced.same rfl rfl rfl rfl, rfl, rfl⟩
    | some m =>
      dsimp only
      generalize (if s.top.isEmpty = true then { m with pkthdr := ⟨0, 0⟩ } else m) = m
      cases placed : placeData E atomic s.top.isEmpty s.resid s.space m e with
      | none => exact ⟨nofun, nofun⟩
      | some r =>
        obtain ⟨m', len, e₁⟩ := r
        dsimp only
        cases moved : E.uiomove m' len s.uio e₁ with
        | none => exact ⟨nofun, nofun⟩
        | some r =>
          obtain ⟨err, uio, e₂⟩ := r
          dsimp only
          have top : ((addMpLen E (link s.mpTop s.top { m' with len }) len e₂).1).map Mbuf.addr =
              s.top.map Mbuf.addr ++ [m'.addr] := by
            rw [addMpLen_addrs, link]
            split
            · rename_i isTop
              rw [clear isTop]
              rfl
            · rw [List.map_append]
              rfl
          generalize addMpLen E (link s.mpTop s.top { m' with len }) len e₂ = linked at top ⊢
          obtain ⟨top', e₃⟩ := linked
          dsimp only at top ⊢
          have more : ∀ (e : σ) (err : Nat) (uio : Outgoing) (resid space : Nat) (mpTop : Bool), Filled req s
              { s with
                  e, err, uio, resid, space, mpTop, top := top', got :=
                      s.got ++ [{ m' with len }] } := fun e err uio resid space mpTop =>
            ⟨balanced.more (m := { m' with len }) top rfl rfl rfl, rfl, rfl⟩
          split
          · refine ⟨nofun, fun go s' leave => ?_⟩
            cases leave
            exact more ..
          split
          · refine ⟨nofun, fun go s' leave => ?_⟩
            split at leave
            · cases leave
              have before := more e₃ err uio uio.resid (wsub s.space len) false
              exact ⟨before.balanced.same markEor_addrs rfl rfl rfl, rfl, rfl⟩
            · cases leave
              exact more ..
          split
          · refine ⟨fun s' again => ?_, nofun⟩
            cases again
            exact ⟨more .., nofun⟩
          · refine ⟨nofun, fun go s' leave => ?_⟩
            cases leave
            exact more ..

theorem build_filled {fuel : Nat} {s s' : Sending σ} {go : Bool} (balanced : Balanced req s)
    (clear : req.uio.isSome = true → Clear s)
    (built : build E fuel proto req s = some (go, s')) : Filled req s s' := by
  unfold build at built
  cases given : req.uio with
  | none =>
    rw [given] at built
    simp only [Option.some.injEq, Prod.mk.injEq] at built
    obtain ⟨-, rfl⟩ := built
    refine ⟨balanced.same ?_ rfl rfl rfl, rfl, rfl⟩
    dsimp only
    split
    · exact markEor_addrs
    · rfl
  | some uio =>
    rw [given] at built
    have start : Filled req s s ∧ Clear s := ⟨⟨balanced, rfl, rfl⟩, clear (by rw [given]; rfl)⟩
    refine loop_invariant (fun t => Filled req s t ∧ Clear t) (fun r : Bool × Sending σ =>
      Filled req s r.2) ?_ ?_ built start
    · intro t next again ⟨filled, clear⟩
      obtain ⟨after, clear'⟩ := (fillPass_filled filled.balanced clear).1 next again
      exact ⟨⟨after.balanced, after.locked.trans filled.locked, after.handed.trans filled.handed⟩, clear'⟩
    · intro t r leave ⟨filled, clear⟩
      have after := (fillPass_filled filled.balanced clear).2 r.1 r.2 leave
      exact ⟨after.balanced, after.locked.trans filled.locked, after.handed.trans filled.handed⟩

theorem Balanced.send {s s' : Sending σ} {call : Handed σ} (balanced : Balanced req s)
    (top : call.top = s.top) (control : call.control = s.control)
    (handed : s'.handed = s.handed ++ [call]) (got : s'.got = s.got)
    (none : s'.top = [] ∧ s'.control = []) : Balanced req s' := by
  have split : handedOver s'.handed = handedOver s.handed ++ (s.top ++ s.control).map Mbuf.addr := by
    rw [handed, handedOver, List.flatMap_append, List.flatMap_singleton, top, control, handedOver]
  rw [Balanced, got, none.1, none.2, split, List.append_nil, List.map_nil, List.append_nil]
  exact balanced

structure Between (req : SendRequest) (s : Sending σ) : Prop where
  balanced : Balanced req s
  clear : req.uio.isSome = true → s.top = []

theorem sendPass_between {fuel : Nat} {s : Sending σ} (between : Between req s) :
    (∀ s', sendPass E fuel proto dontroute req s = some (.again s') → Between req s' ∧ s'.locked = s.locked) ∧
      ∀ go s', sendPass E fuel proto dontroute req s = some (.leave (go, s')) →
        Balanced req s' ∧ s'.locked = s.locked ∧ (go = true → Between req s') := by
  have filled := fun go s' => @build_filled σ E proto req fuel s s' go between.balanced
    fun given _ => between.clear given
  unfold sendPass
  cases built : build E fuel proto req s with
  | none => exact ⟨nofun, nofun⟩
  | some r =>
    obtain ⟨go, t⟩ := r
    have after := filled go t built
    cases go with
    | false =>
      refine ⟨nofun, fun go s' leave => ?_⟩
      cases leave
      exact ⟨after.balanced, after.locked, nofun⟩
    | true =>
      dsimp only
      generalize isCall : (⟨t.e, t.top, t.control, req.addr, _⟩ : Handed σ) = call
      have sent : ∀ e err, Balanced req { t with
          e, err, clen := 0, control := [], top := [], mpTop := true, handed := t.handed ++ [call] } := by
        intro e err
        exact after.balanced.send (by rw [← isCall]) (by rw [← isCall]) rfl rfl ⟨rfl, rfl⟩
      split
      · refine ⟨nofun, fun go s' leave => ?_⟩
        cases leave
        exact ⟨sent _ _, after.locked, nofun⟩
      split
      · refine ⟨fun s' again => ?_, nofun⟩
        cases again
        exact ⟨⟨sent _ _, fun _ => rfl⟩, after.locked⟩
      · refine ⟨nofun, fun go s' leave => ?_⟩
        cases leave
        exact ⟨sent _ _, after.locked, fun _ => ⟨sent _ _, fun _ => rfl⟩⟩

theorem sendLoop_between {fuel count : Nat} {s s' : Sending σ} {go : Bool} (between : Between req s)
    (left : loop (sendPass E fuel proto dontroute req) count s = some (go, s')) :
    Balanced req s' ∧ s'.locked = s.locked ∧ (go = true → Between req s') := by
  refine loop_invariant (fun t => Between req t ∧ t.locked = s.locked)
    (fun r : Bool × Sending σ => Balanced req r.2 ∧ r.2.locked = s.locked ∧
      (r.1 = true → Between req r.2)) ?_ ?_ left ⟨between, rfl⟩
  · intro t next again ⟨held, locked⟩
    obtain ⟨after, locked'⟩ := (sendPass_between held).1 next again
    exact ⟨after, locked'.trans locked⟩
  · intro t r leave ⟨held, locked⟩
    obtain ⟨balanced, locked', onward⟩ := (sendPass_between held).2 r.1 r.2 leave
    exact ⟨balanced, locked'.trans locked, onward⟩

/-- Where the outer loop goes on: it holds the lock but at `restart`. -/
def Outside (req : SendRequest) (at' : Bool × Sending σ) : Prop := Between req at'.2 ∧ at'.2.locked = !at'.1

def Left (req : SendRequest) (left : Exit × Sending σ) : Prop :=
  Balanced req left.2 ∧ (left.1 = .out → left.2.locked = false)

theorem lockedPass_left {fuel : Nat} {s : Sending σ} (between : Between req s) (locked : s.locked = true) :
    (∀ next, lockedPass E fuel proto dontroute req s = some (.again next) → Outside req next) ∧
      ∀ left, lockedPass E fuel proto dontroute req s = some (.leave left) → Left req left := by
  unfold lockedPass
  have same : ∀ s' : Sending σ, s'.top = s.top → s'.got = s.got → s'.control = s.control →
      s'.handed = s.handed → Between req s' := by
    intro s' top got control handed
    exact ⟨between.balanced.same (by rw [top]) got control handed, fun given =>
      top.trans (between.clear given)⟩
  split
  · refine ⟨nofun, fun left leave => ?_⟩
    cases leave
    exact ⟨(same _ rfl rfl rfl rfl).balanced, nofun⟩
  split
  · split
    · refine ⟨nofun, fun left leave => ?_⟩
      cases leave
      exact ⟨(same _ rfl rfl rfl rfl).balanced, nofun⟩
    · dsimp only
      split
      · refine ⟨nofun, fun left leave => ?_⟩
        cases leave
        exact ⟨(same _ rfl rfl rfl rfl).balanced, fun _ => rfl⟩
      · refine ⟨fun next again => ?_, nofun⟩
        cases again
        exact ⟨same _ rfl rfl rfl rfl, rfl⟩
  · have start := same { s with mpTop := true, space := wsub (sbspace (E.sock s.e).sndsb) s.clen }
      rfl rfl rfl rfl
    split
    · exact ⟨nofun, nofun⟩
    · rename_i ended
      refine ⟨nofun, fun left leave => ?_⟩
      cases leave
      exact ⟨(sendLoop_between start ended).1, nofun⟩
    · rename_i s' ended
      obtain ⟨balanced, locked', onward⟩ := sendLoop_between start ended
      split
      · refine ⟨fun next again => ?_, nofun⟩
        cases again
        exact ⟨onward rfl, locked'.trans locked⟩
      · refine ⟨nofun, fun left leave => ?_⟩
        cases leave
        exact ⟨balanced, nofun⟩

theorem outerPass_left {fuel : Nat} {at' : Bool × Sending σ} (outside : Outside req at') :
    (∀ next, outerPass E fuel proto dontroute req at' = some (.again next) → Outside req next) ∧
      ∀ left, outerPass E fuel proto dontroute req at' = some (.leave left) → Left req left := by
  obtain ⟨restart, s⟩ := at'
  obtain ⟨between, locked⟩ := outside
  have same : ∀ s' : Sending σ, s'.top = s.top → s'.got = s.got → s'.control = s.control →
      s'.handed = s.handed → Between req s' := by
    intro s' top got control handed
    exact ⟨between.balanced.same (by rw [top]) got control handed, fun given =>
      top.trans (between.clear given)⟩
  unfold outerPass
  cases restart with
  | false => exact lockedPass_left between locked
  | true =>
    simp only [if_true]
    split
    · refine ⟨nofun, fun left leave => ?_⟩
      cases leave
      exact ⟨(same _ rfl rfl rfl rfl).balanced, fun _ => locked⟩
    · exact lockedPass_left (same _ rfl rfl rfl rfl) rfl

def Consumed (req : SendRequest) (sent : Sent σ) : Prop :=
  (handedOver sent.handed ++ sent.released.map Mbuf.addr).Perm
    ((req.top ++ req.control ++ sent.got).map Mbuf.addr)

theorem sendEnd_consumed {exit : Exit} {s : Sending σ} {sent : Sent σ} (left : Left req (exit, s))
    (ended : sendEnd E exit s = some sent) :
    Consumed req sent ∧ sent.locked = false := by
  unfold sendEnd at ended
  dsimp only at ended
  split at ended
  · cases ended
  split at ended
  · cases ended
  cases ended
  refine ⟨left.1, ?_⟩
  cases exit with
  | release => rfl
  | out => exact left.2 rfl

/-- The call leaves nothing behind at once, and is not given both a chain and a `uio`. -/
def Releases (proto : Proto) (so : SendSide) (req : SendRequest) : Prop :=
  ((refuses proto so req).isSome = true → req.top = [] ∧ req.control = []) ∧ (req.top = [] ∨ req.uio = none)

theorem sosend_consumed {fuel : Nat} {e : σ} {sent : Sent σ} (releases : Releases proto (E.sock e) req)
    (returned : sosend E fuel proto req e = some sent) : Consumed req sent ∧ sent.locked = false := by
  unfold sosend at returned
  dsimp only at returned
  cases refused : refuses proto (E.sock e) req with
  | some err =>
    rw [refused] at returned
    cases returned
    obtain ⟨top, control⟩ := releases.1 (by rw [refused]; rfl)
    rw [Consumed, top, control]
    exact ⟨.refl _, rfl⟩
  | none =>
    rw [refused] at returned
    dsimp only at returned
    split at returned
    · cases returned
    · rename_i exit s ended
      apply sendEnd_consumed _ returned
      have start : Outside req (true,
        (⟨e, req.uio.getD ⟨[], 0⟩, sendResid req, 0, controlLen req, req.top, req.control, 0, true,
          false, [], []⟩ :
          Sending σ)) := by
        refine ⟨⟨?_, fun given => releases.2.resolve_right ?_⟩, rfl⟩
        · rw [Balanced, List.append_nil]
          exact .refl _
        · intro none
          rw [none] at given
          cases given
      exact loop_invariant (Outside req) (Left req) (fun t next again held =>
        (outerPass_left held).1 next again)
        (fun t left leave held => (outerPass_left held).2 left leave) ended start

def ready : SendSide := ⟨false, true, false, false, false, 0, ⟨0, 2^32 - 1, 0, 0, 2^32 - 1, .null⟩⟩

def someMbuf : Mbuf := ⟨4096, 4096 + sizeofMHdr, 0, noFlags, 2, ⟨0, 0⟩, ⟨0, 0, 0, 0⟩⟩

/-- The processes around: the socket is `ready` once it is locked, there is memory, and no bytes can
    be copied. -/
def around : Env SendSide where
  sock := id
  sblock _ _ := (0, ready)
  sbunlock := id
  sbwait so := (0, so)
  take _ so := (some someMbuf, so)
  getext m so := some (0, m, so)
  uiomove _ _ uio so := some (eInval, uio, so)
  bump _ _ so := so
  usrreq call := (0, call.state)
  freem _ so := some so
  getext_addr m e r extended := by
    cases extended
    rfl

theorem around_fills {s : Sending SendSide} (atomic eor : Bool) (mpTop : s.mpTop = true) :
    ∃ s', fillPass around atomic eor s = some (.leave (false, s')) ∧ s'.top.length = 1 ∧
      s'.got.length = s.got.length + 1 ∧
      s'.control = s.control ∧ s'.handed = s.handed := by
  have placed : ∀ first resid space m, ∃ m' len, placeData around atomic first resid space m s.e =
      some (m', len, s.e) := by
    intro first resid space m
    unfold placeData
    dsimp only [around]
    split
    · exact ⟨_, _, rfl⟩
    · exact ⟨_, _, rfl⟩
  obtain ⟨m', len, placed⟩ := placed s.top.isEmpty s.resid s.space
    (if s.top.isEmpty then { someMbuf with pkthdr := ⟨0, 0⟩ } else someMbuf)
  unfold fillPass
  dsimp only [around] at placed ⊢
  rw [placed]
  dsimp only
  rw [if_pos (by decide)]
  refine ⟨_, rfl, ?_, List.length_append, rfl, rfl⟩
  rw [link, if_pos mpTop]
  rfl

theorem around_sock (so : SendSide) : around.sock so = so := rfl

theorem sends_around (fits : sendResid req + controlLen req < 2^32) {uio : Outgoing}
    (given : req.uio = some uio) {s : Sending SendSide}
    (resid : s.resid = sendResid req) (clen : s.clen = controlLen req) :
    ∃ s', loop (outerPass around 1 proto dontroute req) 1 (true, s) = some (.release, s') ∧
      s'.top.length = 1 ∧
      s'.got.length = s.got.length + 1 ∧ s'.control = s.control ∧ s'.handed = s.handed := by
  have roomy : sbspace ready.sndsb = 2^32 - 1 := by decide
  have free : ∀ resid, unsendable proto ready req resid = none := fun resid => rfl
  have empty : tooFull proto ready req (sendResid req) (controlLen req) = false := by
    simp only [tooFull, roomy, decide_eq_false_iff_not]
    omega
  obtain ⟨s', filled, top, got, control, handed⟩ := around_fills (s := { s with
    e := ready, err := 0, locked := true, mpTop := true, space :=
      wsub (sbspace ready.sndsb) s.clen }) (atomicSend proto req) req.eor rfl
  refine ⟨s', ?_, top, got, control, handed⟩
  have sent : loop (sendPass around 1 proto dontroute req) 1 { s with
      e := ready, err := 0, locked := true, mpTop := true, space :=
          wsub (sbspace ready.sndsb) s.clen } = some (false, s') := by
    rw [loop, sendPass, build, given, loop, filled]
  have passed : outerPass around 1 proto dontroute req (true, s) = some (.leave (.release, s')) := by
    change lockedPass around 1 proto dontroute req { s with e := ready, err := 0, locked := true } = _
    simp only [resid, clen] at sent
    simp only [lockedPass, around_sock, free, resid, clen, empty, Bool.false_eq_true, if_false, sent]
  rw [loop, passed]

/-- `sosend` consumes what it is given, and leaves the buffer unlocked, whatever the processes
    around do, when it does not return at once and is not given both a chain and a `uio`. -/
theorem sosend_consumes_iff (bound : so.sndsb.hiwat ≤ sbMax) :
    (∀ (σ : Type) (E : Env σ) (fuel : Nat) (e : σ) (sent : Sent σ), E.sock e = so →
      sosend E fuel proto req e = some sent →
      Consumed req sent ∧ sent.locked = false) ↔ Releases proto so req := by
  constructor
  · intro consumes
    have kept : (refuses proto so req).isSome = true → req.top = [] ∧ req.control = [] := by
      intro refused
      obtain ⟨err, isErr⟩ := Option.isSome_iff_exists.mp refused
      have returned : sosend around 0 proto req so = some ⟨so, err, req.uio.getD ⟨[], 0⟩, [], [],
          [], false⟩ := by
        simp only [sosend, around, id, isErr]
      have balanced := (consumes SendSide around 0 so _ rfl returned).1.length_eq
      simp only [handedOver, List.flatMap_nil, List.map_nil, List.append_nil, List.length_nil,
        List.length_map, List.length_append] at balanced
      exact ⟨List.length_eq_zero_iff.mp (by omega), List.length_eq_zero_iff.mp (by omega)⟩
    refine ⟨kept, ?_⟩
    by_contra both
    rw [not_or] at both
    obtain ⟨uio, given⟩ := Option.ne_none_iff_exists'.mp both.2
    cases refused : refuses proto so req with
    | some err => exact both.1 (kept (by rw [refused]; rfl)).1
    | none =>
      have fits : sendResid req + controlLen req < 2^32 := by
        have atomic : atomicSend proto req = true := by simp [atomicSend, both.1]
        simp only [refuses, given, atomic, Option.isNone_some, Bool.false_eq_true, false_and,
          if_false, true_and] at refused
        split at refused
        · cases refused
        split at refused
        · cases refused
        simp only [sbMax] at bound
        omega
      obtain ⟨s, sent, top, got, control, handed⟩ :=
        @sends_around proto (onceDontroute proto so req) _ fits _ given
        ⟨so, uio, sendResid req, 0, controlLen req, req.top, req.control, 0, true, false, [], []⟩ rfl rfl
      have returned : ∃ sent, sosend around 1 proto req so = some sent ∧ sent.handed = [] ∧
          sent.released = s.top ++ s.control ∧ sent.got = s.got := by
        have frees : ∀ chain : Chain, (if chain.isEmpty = true then some s.e
            else around.freem chain s.e) = some s.e := by
          intro chain
          split <;> rfl
        have unlocks : around.sbunlock s.e = s.e := rfl
        simp only [sosend, around_sock, refused, given, Option.getD_some, sent, sendEnd, unlocks, frees]
        exact ⟨_, rfl, handed, rfl, rfl⟩
      obtain ⟨sent, returned, none, released, more⟩ := returned
      have balanced := (consumes SendSide around 1 so sent rfl returned).1.length_eq
      simp only [handedOver, none, released, more, control, top, got, List.flatMap_nil,
        List.nil_append, List.length_map, List.length_append,
        List.length_nil] at balanced
      exact both.1 (List.length_eq_zero_iff.mp (by omega))
  · rintro releases σ E fuel e sent rfl returned
    exact sosend_consumed releases returned

def udpProto : Proto := ⟨false, true, false⟩

def udpSocket : SendSide := ⟨false, true, false, false, false, 0, ⟨0, 9216, 2048, 0, 18432, .null⟩⟩

def message (size : Nat) : SendRequest :=
  ⟨none, some ⟨[List.replicate size 7], size⟩, [], [someMbuf], false, false, false⟩

theorem datagram_consumed :
    (∀ (σ : Type) (E : Env σ) (fuel : Nat) (e : σ) (sent : Sent σ), E.sock e = udpSocket →
    sosend E fuel udpProto (message 100) e = some sent → Consumed (message 100) sent ∧ sent.locked = false) ↔
      Releases udpProto udpSocket (message 100) := sosend_consumes_iff (by decide)

/-- The mbuf of control data is left behind when the message is too long. -/
theorem oversized_leaks : ∃ sent, sosend around 0 udpProto (message 9217) udpSocket = some sent ∧
    sent.err = eMsgsize ∧
    ¬ Consumed (message 9217) sent := by
  have refused : refuses udpProto udpSocket (message 9217) = some eMsgsize := by decide +kernel
  refine ⟨⟨udpSocket, eMsgsize, (message 9217).uio.getD ⟨[], 0⟩, [], [], [], false⟩, ?_, rfl,
    fun consumed => ?_⟩
  · simp only [sosend, around_sock, refused]
  · have balanced := consumed.length_eq
    cases balanced

end Embryo.Sock
