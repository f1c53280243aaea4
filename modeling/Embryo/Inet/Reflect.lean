import Embryo.Inet.Options
import Embryo.Inet.Output

namespace Embryo.Inet

open Embryo.Machine Embryo.Uipc
open Embryo.Kmem (Arena)

def mtSoopts : Nat := 5
def mtHeader : Nat := 6
def ipMaxttl : UInt8 := 255

structure Ifaddr where
  addr : UInt32
  broadaddr : UInt32
  broadcast : Bool
deriving DecidableEq

/-- The list of the addresses of this host, and what `ifaof_ifpforaddr` finds for an address and an
    interface. -/
structure Ifaddrs where
  inIfaddrlist : List Ifaddr
  ifaofIfpforaddr : UInt32 → Nat → Option Ifaddr

structure IpSrcrt where
  nhops : Nat
  dst : UInt32
  srcopt : UInt8 × UInt8
  route : Nat → UInt32

def inExperimental (addr : UInt32) : Bool := addr &&& htonl 0xf0000000 = htonl 0xf0000000
def inClassa (addr : UInt32) : Bool := addr &&& htonl 0x80000000 = 0
def inClassaNet (addr : UInt32) : UInt32 := addr &&& htonl 0xff000000
def inLoopbacknet : UInt32 := 127

def inCanforward (ina : UInt32) : Bool :=
  if inExperimental ina ∨ inMulticast ina then false
  else if inClassa ina ∧ (inClassaNet ina = 0 ∨ inClassaNet ina = inLoopbacknet) then false
  else true

def reflectFrom (I : Ifaddrs) (tmp : UInt32) (recvif : Nat) : Option Ifaddr :=
  (I.inIfaddrlist.find? fun ia => tmp = ia.addr ∨ ia.broadcast ∧ tmp = ia.broadaddr).or
    (I.ifaofIfpforaddr tmp recvif)

def ipSrcroute (A : Arena) (P : Pool) (R : IpSrcrt) : Option Mbuf × Pool :=
  if R.nhops = 0 then (none, P)
  else
    match mbufGet A P mtSoopts with
    | (none, P) => (none, P)
    | (some m, P) =>
      let hops := (List.range (R.nhops - 1)).reverse.flatMap fun i => bytes32 (R.route i)
      let option := bytes32 (R.route (R.nhops - 1)) ++ [1, R.srcopt.1, R.srcopt.2, 4] ++ hops ++ bytes32 R.dst
      (some { m with len := 4 * (R.nhops + 1) + 4 }, { P with mem := write P.mem m.data option })

def optionMbuf (A : Arena) (P : Pool) (R : IpSrcrt) : Option Mbuf × Pool :=
  match ipSrcroute A P R with
  | (some opts, P) => (some opts, P)
  | (none, P) =>
    match mbufGetpkt A P mtHeader with
    | (none, P) => (none, P)
    | (some opts, P) => (some { opts with len := 4 }, { P with mem := write P.mem opts.data (bytes32 0) })

structure Copying where
  pool : Pool
  opts : Mbuf
  cp : Nat
  cnt : Int

def copyPass (s : Copying) : Option (Pass Copying Copying) :=
  if s.cnt ≤ 0 then some (.leave s)
  else
    let opt := schar (s.pool.mem s.cp)
    if opt = 0 then some (.leave s)
    else
      let len := if opt = 1 then 1 else schar (s.pool.mem (s.cp + 1))
      if opt ≠ 1 ∧ (len ≤ 0 ∨ len > s.cnt) then some (.leave s)
      else if opt = 7 ∨ opt = 68 then
        match s.pool.fill s.opts s.cp (s.opts.data + s.opts.len) len.toNat with
        | none => none
        | some P =>
          some (.again ⟨P, { s.opts with len := wrap (s.opts.len + len.toNat) }, s.cp + len.toNat,
            s.cnt - len⟩)
      else some (.again { s with cp := s.cp + len.toNat, cnt := s.cnt - len })

def padOptions : Nat → Pool → Mbuf → Mbuf × Pool
  | 0, P, opts => (opts, P)
  | cnt + 1, P, opts =>
    padOptions cnt { P with mem := write P.mem (opts.data + opts.len) [1] }
      { opts with len := wrap (opts.len + 1) }

def collectOptions (A : Arena) (P : Pool) (R : IpSrcrt) (ip : Nat) (optlen : Int) :
    Option (Option Mbuf × Pool) :=
  match optionMbuf A P R with
  | (none, P) => some (none, P)
  | (some opts, P) =>
    match loop copyPass (optlen.toNat + 1) ⟨P, opts, ip + sizeofIp, optlen⟩ with
    | none => none
    | some s =>
      let (opts, P) := padOptions (s.opts.len % 4) s.pool s.opts
      some (some opts, P)

def dropOptions (P : Pool) (first : Mbuf) (optlen : Nat) : Option (Mbuf × Pool) :=
  let ip := first.data
  let mem := setIpHlen P.mem ip (sizeofIp / 4)
  let mem := setIpLen mem ip (ipLen mem ip - UInt16.ofNat optlen)
  let first := { first with len := wsub first.len optlen }
  let first := if first.flags.pkthdr then
    { first with pkthdr := { first.pkthdr with mpLen := wsub first.pkthdr.mpLen optlen } } else first
  match { P with mem }.fill first (ip + sizeofIp + optlen) (ip + sizeofIp) (wsub first.len sizeofIp) with
  | none => none
  | some P => some (first, P)

/-- What becomes of a packet: it is freed, or given to `icmp_send`, with its options. -/
inductive Reflected where
  | freed (P : Pool)
  | sent (first : Mbuf) (rest : Chain) (opts : Option Mbuf) (P : Pool)

def icmpReflect (A : Arena) (I : Ifaddrs) (R : IpSrcrt) (P : Pool) (m : Chain) : Option Reflected :=
  match m with
  | [] => none
  | first :: rest =>
    let ip := first.data
    let src := ipSrc P.mem ip
    if ¬ inCanforward src ∧ inClassaNet src ≠ inLoopbacknet then
      match mbufFreem A P (first :: rest) with
      | none => none
      | some P => some (.freed P)
    else
      let tmp := ipDst P.mem ip
      let mem := setIpDst P.mem ip src
      match reflectFrom I tmp first.pkthdr.mpRecvif with
      | none =>
        match mbufFreem A { P with mem } (first :: rest) with
        | none => none
        | some P => some (.freed P)
      | some ia =>
        let mem := setIpTtl (setIpSrc mem ip ia.addr) ip ipMaxttl
        let optlen : Int := ipHlen mem ip * 4 - sizeofIp
        let quiet := fun (m : Mbuf) => { m with flags := { m.flags with bcast := false, mcast := false } }
        if optlen > 0 then
          match collectOptions A { P with mem } R ip optlen with
          | none => none
          | some (opts, P) =>
            match dropOptions P first optlen.toNat with
            | none => none
            | some (first, P) => some (.sent (quiet first) rest opts P)
        else some (.sent (quiet first) rest none { P with mem })

def walk : Nat → List UInt8 → List UInt8 × List UInt8
  | 0, bs => ([], bs)
  | n + 1, bs =>
    match bs with
    | [] => ([], [])
    | code :: rest =>
      if code = 0 then ([], bs)
      else if code = 1 then walk n rest
      else
        match rest with
        | [] => ([], bs)
        | len :: _ =>
          if len.toNat = 0 ∨ bs.length < len.toNat then ([], bs)
          else
            let (recorded, stop) := walk n (bs.drop len.toNat)
            (if code = 7 ∨ code = 68 then bs.take len.toNat ++ recorded else recorded, stop)

def recorded (bs : List UInt8) : List UInt8 := (walk bs.length bs).1

def Cut (bs : List UInt8) : Prop := (walk bs.length bs).2 = [7] ∨ (walk bs.length bs).2 = [68]

instance (bs : List UInt8) : Decidable (Cut bs) := inferInstanceAs (Decidable (_ ∨ _))

/-- What the loop copies: a code in the last byte takes the byte behind the options for its length. -/
def copied (n : Nat) (next : UInt8) (bs : List UInt8) : List UInt8 :=
  (walk n bs).1 ++ if next = 1 ∧ ((walk n bs).2 = [7] ∨ (walk n bs).2 = [68]) then (walk n bs).2 else []

/-- The loop has put `r` behind the data of the mbuf, and changed nothing outside of its buffer. -/
structure Copied (s s' : Copying) (r : List UInt8) : Prop where
  opts : s'.opts = { s.opts with len := s.opts.len + r.length }
  pool : s'.pool = { s.pool with mem := s'.pool.mem }
  data : bytes s'.pool.mem s.opts.data (s.opts.len + r.length) = bytes s.pool.mem s.opts.data s.opts.len ++ r
  frame : SameBut s.opts.room.addr s.opts.room.size s.pool.mem s'.pool.mem

theorem Copied.refl (s : Copying) : Copied s s [] := ⟨rfl, rfl, by simp, SameBut.refl _ _ _⟩

theorem Copied.trans {s s' s'' : Copying} {r r' : List UInt8} (first : Copied s s' r)
    (second : Copied s' s'' r') :
    Copied s s'' (r ++ r') := by
  obtain ⟨opts, pool, data, frame⟩ := first
  obtain ⟨opts', pool', data', frame'⟩ := second
  rw [opts] at opts' data' frame'
  refine ⟨?_, ?_, ?_, frame.trans frame'⟩
  · rw [opts', List.length_append, Nat.add_assoc]
  · rw [pool', pool]
  · rw [List.length_append, ← Nat.add_assoc, data', data, List.append_assoc]

theorem copied_fill {s : Copying} {k : Nat} (low : s.opts.room.addr ≤ s.opts.data)
    (high : s.opts.data + (s.opts.len + k) ≤ s.opts.room.stop) (below : s.opts.room.stop < 2^32)
    (cp : Nat) (cnt : Int) :
    ∃ P, s.pool.fill s.opts s.cp (s.opts.data + s.opts.len) k = some P ∧
      Copied s ⟨P, { s.opts with len := wrap (s.opts.len + k) }, cp, cnt⟩ (bytes s.pool.mem s.cp k) := by
  refine ⟨_, if_pos (.inr ⟨by omega, by omega⟩), ⟨?_, rfl, ?_, ?_⟩⟩
  · rw [bytes_length, wrap_of_lt (by omega)]
  · simp only [bytes_length]
    rw [bytes_add, bytes_bcopy]
    congr 1
    apply bytes_congr
    intro x _ above
    exact bcopy_outside (by omega)
  · intro x outside
    apply bcopy_outside
    simp only [Region.stop] at high
    omega

theorem schar_zero (c : UInt8) : schar c = 0 ↔ c = 0 := schar_iff (d := 0) (by decide)
theorem schar_one (c : UInt8) : schar c = 1 ↔ c = 1 := schar_iff (d := 1) (by decide)
theorem schar_record (c : UInt8) : schar c = 7 ∨ schar c = 68 ↔ c = 7 ∨ c = 68 := by
  have record : schar c = 7 ↔ c = 7 := schar_iff (d := 7) (by decide)
  have stamp : schar c = 68 ↔ c = 68 := schar_iff (d := 68) (by decide)
  rw [record, stamp]

theorem copied_nil (k : Nat) (next : UInt8) : copied k next [] = [] := by
  cases k <;> simp [copied, walk]

theorem copied_option {mem : Memory} {cp k n : Nat} (notEol : mem cp ≠ 0) (notNop : mem cp ≠ 1) :
    copied (k + 1) (mem (cp + (n + 1))) (bytes mem cp (n + 1)) =
      if (mem (cp + 1)).toNat = 0 ∨ n + 1 < (mem (cp + 1)).toNat then []
      else (if mem cp = 7 ∨ mem cp = 68 then bytes mem cp (mem (cp + 1)).toNat else []) ++
        copied k (mem (cp + (n + 1)))
        (bytes mem (cp + (mem (cp + 1)).toNat) (n + 1 - (mem (cp + 1)).toNat)) := by
  cases n with
  | zero =>
    have alone : bytes mem cp 1 = [mem cp] := rfl
    have stops : walk (k + 1) [mem cp] = ([], [mem cp]) := by simp [walk, notEol, notNop]
    rw [Nat.zero_add, alone, copied, stops, List.nil_append]
    by_cases one : mem (cp + 1) = 1
    · have length : (mem (cp + 1)).toNat = 1 := by rw [one]; rfl
      have taken : ¬ (1 = 0 ∨ 0 + 1 < 1) := by decide
      rw [length, if_neg taken, Nat.sub_self, one, alone, bytes, copied_nil, List.append_nil]
      simp only [true_and, List.cons.injEq, and_true]
    · have length : (mem (cp + 1)).toNat ≠ 1 := fun held => one (UInt8.toNat_inj.mp held)
      have stays : (mem (cp + 1)).toNat = 0 ∨ 0 + 1 < (mem (cp + 1)).toNat := by omega
      rw [if_neg fun held => one held.1, if_pos stays]
  | succ n =>
    have start : bytes mem cp (n + 1 + 1) = mem cp :: mem (cp + 1) :: bytes mem (cp + 1 + 1) n := rfl
    have length : (bytes mem cp (n + 1 + 1)).length = n + 1 + 1 := bytes_length _ _ _
    by_cases stays : (mem (cp + 1)).toNat = 0 ∨ n + 1 + 1 < (mem (cp + 1)).toNat
    · have stops : walk (k + 1) (bytes mem cp (n + 1 + 1)) = ([], bytes mem cp (n + 1 + 1)) := by
        rw [start] at length ⊢
        simp only [walk, if_neg notEol, if_neg notNop, length, if_pos stays]
      rw [if_pos stays, copied, stops, start]
      simp
    · have goes : walk (k + 1) (bytes mem cp (n + 1 + 1)) =
          ((if mem cp = 7 ∨ mem cp = 68 then bytes mem cp (mem (cp + 1)).toNat else []) ++
            (walk k (bytes mem (cp + (mem (cp + 1)).toNat) (n + 1 + 1 - (mem (cp + 1)).toNat))).1,
          (walk k (bytes mem (cp + (mem (cp + 1)).toNat) (n + 1 + 1 - (mem (cp + 1)).toNat))).2) := by
        have front := @bytes_take mem cp (n + 1 + 1) (mem (cp + 1)).toNat (by omega)
        have back := @bytes_drop mem cp (n + 1 + 1) (mem (cp + 1)).toNat (by omega)
        rw [start] at length front back ⊢
        simp only [walk, if_neg notEol, if_neg notNop, length, if_neg stays, front, back]
        split <;> rfl
      rw [if_neg stays, copied, goes, copied, List.append_assoc]

theorem schar_length (c : UInt8) {n : Nat} (short : n < 128) :
    schar c ≤ 0 ∨ schar c > n ↔ c.toNat = 0 ∨ n < c.toNat := by
  have byte := c.toNat_lt
  rw [schar_eq]
  split <;> omega

theorem copyPass_runs (k : Nat) {s : Copying} {n : Nat} (left : s.cnt = n) (enough : n ≤ k) (short : n < 128)
    (low : s.opts.room.addr ≤ s.opts.data) (high : s.opts.data + (s.opts.len + n) ≤ s.opts.room.stop)
    (below : s.opts.room.stop < 2^32)
    (apart : ∀ x, s.cp ≤ x → x ≤ s.cp + n → ¬ (s.opts.room.addr ≤ x ∧ x < s.opts.room.stop)) :
    ∃ s', loop copyPass (k + 1) s = some s' ∧
      Copied s s' (copied k (s.pool.mem (s.cp + n)) (bytes s.pool.mem s.cp n)) ∧
      (copied k (s.pool.mem (s.cp + n)) (bytes s.pool.mem s.cp n)).length ≤ n := by
  induction k generalizing s n with
  | zero =>
    obtain rfl : n = 0 := by omega
    exact ⟨s, loop_leave Nat.one_pos (if_pos (by omega)), by
      simpa [copied, walk, bytes] using Copied.refl s, by simp [copied, walk, bytes]⟩
  | succ k ih =>
    cases n with
    | zero =>
      exact ⟨s, loop_leave (Nat.succ_pos _) (if_pos (by omega)), by
        simpa [copied, walk, bytes] using Copied.refl s,
        by simp [copied, walk, bytes]⟩
    | succ n =>
      have more : ¬ s.cnt ≤ 0 := by omega
      have start : bytes s.pool.mem s.cp (n + 1) = s.pool.mem s.cp :: bytes s.pool.mem (s.cp + 1) n := rfl
      by_cases eol : s.pool.mem s.cp = 0
      · refine ⟨s, loop_leave (Nat.succ_pos _) ?_, ?_, ?_⟩
        · rw [copyPass, if_neg more, if_pos ((schar_zero _).mpr eol)]
        · simpa [copied, walk, start, eol] using Copied.refl s
        · simp [copied, walk, start, eol]
      have notEol : ¬ schar (s.pool.mem s.cp) = 0 := fun held => eol ((schar_zero _).mp held)
      by_cases nop : s.pool.mem s.cp = 1
      · have code : schar (s.pool.mem s.cp) = 1 := (schar_one _).mpr nop
        have again : copyPass s = some (.again { s with cp := s.cp + 1, cnt := s.cnt - 1 }) := by
          rw [copyPass, if_neg more]
          simp [code]
        obtain ⟨s', runs, done, size⟩ := @ih { s with cp := s.cp + 1, cnt := s.cnt - 1 } n
          (by simp only; omega) (by omega) (by omega)
          low (by simp only at *; omega) below fun x least most =>
            apart x (by simp only at least; omega) (by simp only at most; omega)
        have same : copied (k + 1) (s.pool.mem (s.cp + (n + 1))) (bytes s.pool.mem s.cp (n + 1)) =
            copied k (s.pool.mem (s.cp + 1 + n)) (bytes s.pool.mem (s.cp + 1) n) := by
          have next : s.cp + (n + 1) = s.cp + 1 + n := by omega
          simp only [copied, walk, start, nop, next]
          simp
        rw [same]
        exact ⟨s', (loop_again again).trans runs, ⟨done.opts, done.pool, done.data, done.frame⟩,
          Nat.le_succ_of_le size⟩
      have notNop : ¬ schar (s.pool.mem s.cp) = 1 := fun held => nop ((schar_one _).mp held)
      rw [copied_option eol nop]
      have test := schar_length (s.pool.mem (s.cp + 1)) short
      rw [← left] at test
      by_cases stays : (s.pool.mem (s.cp + 1)).toNat = 0 ∨ n + 1 < (s.pool.mem (s.cp + 1)).toNat
      · rw [if_pos stays]
        refine ⟨s, loop_leave (Nat.succ_pos _) ?_, Copied.refl s, Nat.zero_le _⟩
        rw [copyPass, if_neg more]
        simp only [if_neg notEol, if_neg notNop]
        rw [if_pos ⟨notNop, test.mpr stays⟩]
      rw [if_neg stays]
      have value : schar (s.pool.mem (s.cp + 1)) = ((s.pool.mem (s.cp + 1)).toNat : Int) := by
        rw [schar_eq, if_pos (by omega)]
      have goes : ¬ (schar (s.pool.mem s.cp) ≠ 1 ∧
          (schar (s.pool.mem (s.cp + 1)) ≤ 0 ∨ schar (s.pool.mem (s.cp + 1)) > s.cnt)) :=
        fun held => stays (test.mp held.2)
      generalize length : (s.pool.mem (s.cp + 1)).toNat = l at *
      have first : ∃ s₁, copyPass s = some (.again s₁) ∧ s₁.cp = s.cp + l ∧ s₁.cnt = s.cnt - l ∧
          Copied s s₁ (if s.pool.mem s.cp = 7 ∨ s.pool.mem s.cp = 68 then bytes s.pool.mem s.cp l else []) ∧
          (if s.pool.mem s.cp = 7 ∨ s.pool.mem s.cp = 68 then bytes s.pool.mem s.cp l
              else []).length ≤ l := by
        by_cases records : s.pool.mem s.cp = 7 ∨ s.pool.mem s.cp = 68
        · obtain ⟨P, fills, done⟩ := @copied_fill s l low (by omega) below (s.cp + l) (s.cnt - l)
          rw [if_pos records, bytes_length]
          refine ⟨_, ?_, rfl, rfl, done, Nat.le_refl l⟩
          rw [copyPass, if_neg more]
          dsimp only
          rw [if_neg notEol, if_neg notNop, if_neg goes, if_pos ((schar_record _).mpr records),
            value, Int.toNat_natCast, fills]
        · rw [if_neg records]
          refine ⟨{ s with cp := s.cp + l, cnt := s.cnt - l }, ?_, rfl, rfl,
            ⟨rfl, rfl, by simp, SameBut.refl _ _ _⟩, Nat.zero_le l⟩
          rw [copyPass, if_neg more]
          dsimp only
          rw [if_neg notEol, if_neg notNop, if_neg goes, if_neg fun held =>
            records ((schar_record _).mp held), value,
            Int.toNat_natCast]
      generalize (if s.pool.mem s.cp = 7 ∨ s.pool.mem s.cp = 68 then bytes s.pool.mem s.cp l
        else []) = r at first ⊢
      obtain ⟨s₁, again, place, rest, done, size⟩ := first
      have room : s₁.opts.room = s.opts.room := by rw [done.opts]; rfl
      have data : s₁.opts.data = s.opts.data := by rw [done.opts]
      have len : s₁.opts.len = s.opts.len + r.length := by rw [done.opts]
      obtain ⟨s', runs, later, size'⟩ := @ih s₁ (n + 1 - l) (by omega) (by omega) (by omega)
        (by rw [room, data]; exact low)
        (by rw [room, data, len]; omega) (by rw [room]; exact below)
        (fun x least most => by rw [room]; exact apart x (by omega) (by omega))
      have kept : ∀ x, s.cp ≤ x → x ≤ s.cp + (n + 1) → s₁.pool.mem x = s.pool.mem x := by
        intro x least most
        apply done.frame
        have outside := apart x least most
        simp only [Region.stop] at outside
        exact outside
      have next : s₁.pool.mem (s₁.cp + (n + 1 - l)) = s.pool.mem (s.cp + (n + 1)) := by
        have same : s₁.cp + (n + 1 - l) = s.cp + (n + 1) := by omega
        rw [same]
        exact kept _ (by omega) (by omega)
      have behind : bytes s₁.pool.mem s₁.cp (n + 1 - l) = bytes s.pool.mem (s.cp + l) (n + 1 - l) := by
        rw [place]
        exact bytes_congr fun x least most => kept x (by omega) (by omega)
      rw [next, behind] at later size'
      refine ⟨s', (loop_again again).trans runs, done.trans later, ?_⟩
      rw [List.length_append]
      omega

theorem padOptions_eq (cnt : Nat) {P : Pool} {opts : Mbuf} (low : opts.room.addr ≤ opts.data)
    (high : opts.data + (opts.len + cnt) ≤ opts.room.stop) (below : opts.room.stop < 2^32) :
    ∃ mem, padOptions cnt P opts = ({ opts with len := opts.len + cnt }, { P with mem }) ∧
      bytes mem opts.data (opts.len + cnt) = bytes P.mem opts.data opts.len ++ List.replicate cnt 1 ∧
      SameBut opts.room.addr opts.room.size P.mem mem := by
  induction cnt generalizing P opts with
  | zero => exact ⟨P.mem, rfl, by simp, SameBut.refl _ _ _⟩
  | succ cnt ih =>
    have next : wrap (opts.len + 1) = opts.len + 1 := wrap_of_lt (by omega)
    have room : opts.data + (opts.len + 1 + cnt) ≤ opts.room.stop := by omega
    obtain ⟨mem, runs, data, frame⟩ := @ih { P with mem := write P.mem (opts.data + opts.len) [1] }
      { opts with len := opts.len + 1 } low room below
    refine ⟨mem, ?_, ?_, (SameBut.write P.mem (by omega) ?_).trans frame⟩
    · rw [padOptions, next, runs, Nat.add_assoc, Nat.add_comm 1 cnt]
    · have one : bytes (write P.mem (opts.data + opts.len) [1]) (opts.data + opts.len) 1 = [1] :=
        bytes_write _ _ [1]
      have before : bytes (write P.mem (opts.data + opts.len) [1]) opts.data opts.len =
          bytes P.mem opts.data opts.len :=
        bytes_congr fun x _ above => write_outside (by omega)
      simp only at data
      rw [List.replicate_succ, Nat.add_comm cnt 1, ← Nat.add_assoc, data, bytes_add, one, before,
        List.append_assoc]
      rfl
    · simp only [Region.stop] at high
      simp only [List.length_singleton]
      omega

variable {A : Arena} {P : Pool} {first : Mbuf} {rest : Chain} {live : List Mbuf} {I : Ifaddrs} {R : IpSrcrt}

structure Fresh (opts : Mbuf) : Prop where
  len : opts.len = 4
  data : opts.data = opts.room.addr
  room : opts.room = ⟨opts.pktdat, mhlen⟩
  plain : opts.flags.ext = false

theorem optionMbuf_given (wf : Wf A P live) (nhops : R.nhops = 0)
    (granted : (Kmem.kmemMalloc A P.kmem msize).1 ≠ 0) :
    ∃ opts P', Inet.optionMbuf A P R = (some opts, P') ∧ Fresh opts ∧ Wf A P' (opts :: live) ∧
      bytes P'.mem opts.data 4 = [0, 0, 0, 0] ∧ SameBut opts.room.addr opts.room.size P.mem P'.mem := by
  rcases wf.take (show mtHeader < 256 by decide) true with ⟨zero, -⟩ | ⟨p, k, -, -, given, wf'⟩
  · exact absurd zero granted
  have none : ipSrcroute A P R = (none, P) := if_pos nhops
  have taken : Inet.optionMbuf A P R = (some { initial (P.stale p) p mtHeader true with len := 4 },
      { took P k p mtHeader with
          mem := write P.mem (initial (P.stale p) p mtHeader true).data (bytes32 0) }) := by
    simp only [Inet.optionMbuf, none, mbufGetpkt, given]
    rfl
  refine ⟨_, _, taken, ⟨rfl, rfl, rfl, rfl⟩, ?_, bytes_write _ _ (bytes32 0), ?_⟩
  · have adjusted := @Wf.adjust _ _ _ _ { initial (P.stale p) p mtHeader true with len := 4 }
      wf' rfl rfl rfl fun _ => rfl
    apply adjusted.write List.mem_cons_self
    intro x outside
    apply write_outside
    simp only [initial, Mbuf.room, noFlags, Region.stop, Mbuf.pktdat, mhlen, mlen, msize,
      sizeofMHdr, sizeofPkthdr] at outside ⊢
    simp only [Bool.false_eq_true, if_false, if_true] at outside ⊢
    have size : (bytes32 0).length = 4 := rfl
    omega
  · exact SameBut.write _ (Nat.le_refl _) (Nat.add_le_add_left (show 4 ≤ mhlen by decide) _)

/-- The mbuf that the options end in: the address, what has been copied, and as many `NOP`s as are over. -/
structure Collected (P P' : Pool) (opts : Mbuf) (r : List UInt8) : Prop where
  len : opts.len = 4 + r.length + (4 + r.length) % 4
  fit : opts.Fit
  plain : opts.flags.ext = false
  data : bytes P'.mem opts.data opts.len = [0, 0, 0, 0] ++ r ++ List.replicate ((4 + r.length) % 4) 1
  frame : SameBut opts.room.addr opts.room.size P.mem P'.mem

theorem collectOptions_given {n : Nat} (wf : Wf A P (first :: live)) (fit : first.Fit)
    (whole : sizeofIp + n ≤ first.len)
    (short : n ≤ 40) (nhops : R.nhops = 0) (granted : (Kmem.kmemMalloc A P.kmem msize).1 ≠ 0) :
    ∃ opts P', Inet.collectOptions A P R first.data n = some (some opts, P') ∧
      Wf A P' (opts :: first :: live) ∧
      Collected P P' opts (copied n (P.mem (first.data + sizeofIp + n))
        (bytes P.mem (first.data + sizeofIp) n)) := by
  obtain ⟨opts, P₁, given, fresh, wf₁, zeros, frame₁⟩ := optionMbuf_given wf nhops granted
  have apart := wf₁.block_apart List.mem_cons_self
  have below := wf₁.room_lt List.mem_cons_self
  have room := fresh.room
  have data := fresh.data
  have stop : opts.room.stop = opts.addr + 128 := by
    rw [room]
    rfl
  have start : opts.room.addr = opts.addr + 28 := by rw [room]; rfl
  have outside : ∀ x, first.data ≤ x → x ≤ first.data + sizeofIp + n →
      ¬ (opts.room.addr ≤ x ∧ x < opts.room.stop) := by
    intro x least most
    simp only [Region.Apart, Mbuf.block, Region.stop, msize] at apart
    simp only [Mbuf.Fit, Region.stop] at fit
    omega
  have kept : ∀ x, first.data ≤ x → x ≤ first.data + sizeofIp + n → P₁.mem x = P.mem x := by
    intro x least most
    have := outside x least most
    simp only [Region.stop] at this
    exact frame₁ x this
  obtain ⟨s, runs, done, size⟩ := copyPass_runs n (s := ⟨P₁, opts, first.data + sizeofIp, n⟩) rfl
    (Nat.le_refl n) (by omega)
    (by simp only; omega) (by simp only [fresh.len]; omega) below
      (fun x least most => outside x (by simp only at least; omega) most)
  simp only at runs done size
  rw [kept _ (by omega) (Nat.le_refl _),
    bytes_congr fun x least most => kept x (by omega) (by omega)] at done size
  generalize copied n (P.mem (first.data + sizeofIp + n)) (bytes P.mem (first.data + sizeofIp) n) = r at *
  obtain ⟨sOpts, sPool, sData, sFrame⟩ := done
  simp only [fresh.len] at sOpts sPool sData sFrame
  have room' : s.opts.room = opts.room := by rw [sOpts]; rfl
  have data' : s.opts.data = opts.data := by rw [sOpts]
  have len' : s.opts.len = 4 + r.length := by rw [sOpts]
  obtain ⟨mem, pads, padded, frame₂⟩ := @padOptions_eq ((4 + r.length) % 4) s.pool s.opts
    (by rw [room', data']; omega)
    (by rw [room', data', len']; omega) (by rw [room']; exact below)
  rw [room'] at frame₂
  rw [data', len', sData, zeros] at padded
  refine ⟨{ s.opts with len := s.opts.len + (4 + r.length) % 4 }, { s.pool with mem }, ?_, ?_, ?_⟩
  · rw [Inet.collectOptions, given]
    simp only [Int.toNat_natCast, runs, len', pads]
  · rw [sPool]
    have adjusted : Wf A P₁ ({ s.opts with len := s.opts.len + (4 + r.length) % 4 } :: first :: live) := by
      rw [sOpts]
      exact wf₁.adjust rfl rfl rfl fun _ => rfl
    apply adjusted.write List.mem_cons_self
    intro x away
    have away' : ¬ (opts.room.addr ≤ x ∧ x < opts.room.addr + opts.room.size) := by
      rw [← room']
      exact away
    exact (frame₂ x away').trans (sFrame x away')
  · refine ⟨by rw [len'], ⟨?_, ?_⟩, by rw [sOpts]; exact fresh.plain, ?_, ?_⟩
    · show s.opts.room.addr ≤ s.opts.data
      rw [room', data']
      omega
    · show s.opts.data + (s.opts.len + _) ≤ s.opts.room.stop
      rw [room', data', len']
      omega
    · show bytes mem s.opts.data (s.opts.len + _) = _
      rw [data', len']
      exact padded
    · show SameBut s.opts.room.addr s.opts.room.size P.mem mem
      rw [room']
      exact (frame₁.trans sFrame).trans frame₂

theorem dropOptions_given {n : Nat} (fit : first.Fit) (below : first.room.stop < 2^32)
    (whole : sizeofIp + n ≤ first.len) :
    ∃ mem, dropOptions P first n = some ({ first with
        len := first.len - n
        pkthdr := if first.flags.pkthdr then
          { first.pkthdr with mpLen := wsub first.pkthdr.mpLen n } else first.pkthdr },
        { P with mem }) ∧
      (∀ x, ¬ (first.data ≤ x ∧ x < first.data + first.len) → mem x = P.mem x) ∧
      mem first.data = UInt8.ofNat (ipVer P.mem first.data * 16 + 5) ∧
        mem (first.data + 1) = P.mem (first.data + 1) ∧
      ipLen mem first.data = ipLen P.mem first.data - UInt16.ofNat n ∧
      (∀ x, first.data + 4 ≤ x → x < first.data + sizeofIp → mem x = P.mem x) ∧
      bytes mem (first.data + sizeofIp) (first.len - n - sizeofIp) =
        bytes P.mem (first.data + sizeofIp + n) (first.len - n - sizeofIp) := by
  obtain ⟨low, high⟩ := fit
  have shorter : wsub first.len n = first.len - n := wsub_of_le (by omega) (by omega)
  have moved : wsub (first.len - n) sizeofIp = first.len - n - sizeofIp := wsub_of_le (by omega) (by omega)
  let mem₁ := setIpHlen P.mem first.data (sizeofIp / 4)
  let mem₂ := setIpLen mem₁ first.data (ipLen mem₁ first.data - UInt16.ofNat n)
  have first₁ : ∀ x, x ≠ first.data → mem₁ x = P.mem x := fun x other =>
    write_outside (by simp only [List.length_singleton]; omega)
  have second : ∀ x, ¬ (first.data + 2 ≤ x ∧ x < first.data + 4) → mem₂ x = mem₁ x := fun x other =>
    write_outside (by simp only [bytes16, List.length_cons, List.length_nil]; omega)
  let mem₃ := bcopy mem₂ (first.data + sizeofIp + n) (first.data + sizeofIp) (first.len - n - sizeofIp)
  have third : ∀ x, ¬ (first.data + sizeofIp ≤ x ∧ x < first.data + (first.len - n)) → mem₃ x = mem₂ x :=
    fun x other => bcopy_outside (by omega)
  refine ⟨mem₃, ?_, ?_, ?_, ?_, ?_, ?_, ?_⟩
  · have fills : ∀ m : Mbuf, m.room = first.room →
        Pool.fill { P with mem := mem₂ } m (first.data + sizeofIp + n) (first.data + sizeofIp)
          (first.len - n - sizeofIp) =
          some { P with mem := mem₃ } := by
      intro m room
      exact if_pos (.inr ⟨by rw [room]; omega, by rw [room]; omega⟩)
    rw [dropOptions]
    simp only [shorter]
    by_cases flagged : first.flags.pkthdr = true
    · simp only [flagged, if_true, moved]
      rw [fills _ (by simp only [Mbuf.room, Mbuf.pktdat, Mbuf.dat, flagged])]
    · simp only [flagged, Bool.false_eq_true, if_false, moved]
      rw [fills _ (by simp only [Mbuf.room, Mbuf.pktdat, Mbuf.dat])]
  · intro x outside
    rw [third x (by simp only [sizeofIp] at *; omega),
      second x (by simp only [sizeofIp] at *; omega), first₁ x (by simp only [sizeofIp] at *; omega)]
  · rw [third _ (by simp only [sizeofIp]; omega), second _ (by omega)]
    exact @write_inside P.mem first.data 0 [UInt8.ofNat (ipVer P.mem first.data * 16 + 5)] Nat.one_pos
  · rw [third _ (by simp only [sizeofIp]; omega), second _ (by omega), first₁ _ (by omega)]
  · have same : ipLen mem₁ first.data = ipLen P.mem first.data :=
      get16_congr fun x least _ => first₁ x (by omega)
    rw [ipLen, get16_congr fun x least most => third x (by simp only [sizeofIp]; omega), ← same]
    exact get16_write _ _ _
  · intro x least most
    rw [third x (by omega), second x (by omega), first₁ x (by omega)]
  · rw [bytes_bcopy]
    apply bytes_congr
    intro x least most
    rw [second x (by simp only [sizeofIp] at least; omega),
      first₁ x (by simp only [sizeofIp] at least; omega)]

/-- The packet without the `n` bytes of its options, addressed to where it came from. -/
structure Stripped (P P' : Pool) (first first' : Mbuf) (rest : Chain) (n : Nat) : Prop where
  version : ipVer P'.mem first'.data = ipVer P.mem first.data
  hlen : ipHlen P'.mem first'.data = sizeofIp / 4
  tos : P'.mem (first'.data + 1) = P.mem (first.data + 1)
  ipLen : ipLen P'.mem first'.data = ipLen P.mem first.data - UInt16.ofNat n
  id : ipId P'.mem first'.data = ipId P.mem first.data
  off : ipOff P'.mem first'.data = ipOff P.mem first.data
  pro : ipPro P'.mem first'.data = ipPro P.mem first.data
  sum : ipSum P'.mem first'.data = ipSum P.mem first.data
  dst : ipDst P'.mem first'.data = ipSrc P.mem first.data
  payload : (flatten P'.mem (first' :: rest)).drop sizeofIp =
    (flatten P.mem (first :: rest)).drop (sizeofIp + n)
  len : first'.len = first.len - n
  mpLen : first.flags.pkthdr = true → first'.pkthdr.mpLen = wsub first.pkthdr.mpLen n

structure Separated (P P' : Pool) (first first' opts : Mbuf) (rest : Chain) (n : Nat) : Prop
    extends Stripped P P' first first' rest n where
  fits : opts.Fit
  options : ∃ pad < 4, bytes P'.mem opts.data opts.len =
    [0, 0, 0, 0] ++ recorded (bytes P.mem (first.data + sizeofIp) n) ++ List.replicate pad 1
  aligned : opts.len % 4 = 0

def shortened (first : Mbuf) (n : Nat) : Mbuf :=
  { first with
    len := first.len - n
    pkthdr := if first.flags.pkthdr then { first.pkthdr with mpLen := wsub first.pkthdr.mpLen n }
      else first.pkthdr
    flags := { first.flags with bcast := false, mcast := false } }

theorem copied_walk (bs : List UInt8) (next : UInt8) :
    copied bs.length next bs = recorded bs ++ if next = 1 ∧ Cut bs then (walk bs.length bs).2 else [] := rfl

/-- The mbuf is padded to whole words when what is copied has an even length; a code copied alone is
    not an option. -/
theorem padded_iff (bs : List UInt8) (next : UInt8) :
    (∃ pad < 4, [0, 0, 0, 0] ++ copied bs.length next bs ++ List.replicate
      ((4 + (copied bs.length next bs).length) % 4) 1 =
        [0, 0, 0, 0] ++ recorded bs ++ List.replicate pad 1) ∧
      (4 + (copied bs.length next bs).length + (4 + (copied bs.length next bs).length) % 4) % 4 = 0 ↔
    (recorded bs).length % 2 = 0 ∧ ¬ (Cut bs ∧ next = 1) := by
  rw [copied_walk]
  by_cases hit : next = 1 ∧ Cut bs
  · rw [if_pos hit]
    refine iff_of_false ?_ fun held => held.2 hit.symm
    rintro ⟨⟨pad, -, same⟩, -⟩
    have ends : ∃ code, (walk bs.length bs).2 = [code] ∧ code ≠ 1 := by
      rcases hit.2 with held | held
      · exact ⟨7, held, by decide⟩
      · exact ⟨68, held, by decide⟩
    obtain ⟨code, held, other⟩ := ends
    rw [held, ← List.append_assoc, List.append_assoc _ [code], List.append_cancel_left_eq] at same
    have member : code ∈ List.replicate pad (1 : UInt8) := same ▸ List.mem_append_left _ List.mem_cons_self
    exact other (List.eq_of_mem_replicate member)
  · rw [if_neg hit, List.append_nil]
    have missed : ¬ (Cut bs ∧ next = 1) := fun held => hit held.symm
    constructor
    · rintro ⟨-, whole⟩
      exact ⟨by omega, missed⟩
    · rintro ⟨even, -⟩
      exact ⟨⟨_, by omega, rfl⟩, by omega⟩

theorem addressed_bytes (mem : Memory) (ip : Nat) (src ia : UInt32) :
    let mem' := setIpTtl (setIpSrc (setIpDst mem ip src) ip ia) ip ipMaxttl
    (∀ x, x ≠ ip + 8 → ¬ (ip + 12 ≤ x ∧ x < ip + 20) → mem' x = mem x) ∧ ipDst mem' ip = src := by
  intro mem'
  have ttl : ∀ x, x ≠ ip + 8 → mem' x = setIpSrc (setIpDst mem ip src) ip ia x := fun x other =>
    write_outside (by simp only [List.length_singleton]; omega)
  have srcs : ∀ x, ¬ (ip + 12 ≤ x ∧ x < ip + 16) → setIpSrc (setIpDst mem ip src) ip ia x =
      setIpDst mem ip src x :=
    fun x other => write_outside (by simp only [bytes32, List.length_cons, List.length_nil]; omega)
  have dsts : ∀ x, ¬ (ip + 16 ≤ x ∧ x < ip + 20) → setIpDst mem ip src x = mem x := fun x other =>
    write_outside (by simp only [bytes32, List.length_cons, List.length_nil]; omega)
  refine ⟨fun x other outside => ?_, ?_⟩
  · rw [ttl x other, srcs x (by omega), dsts x (by omega)]
  · rw [ipDst, get32_congr fun x least most => ttl x (by omega), get32_congr fun x least most =>
      srcs x (by omega)]
    exact get32_write mem (ip + 16) src

section

variable {n : Nat} {ia : Ifaddr} {others : List Mbuf}
  (wf : Wf A P (first :: (rest ++ others))) (fits : ∀ e ∈ first :: rest, e.Fit)
  (alone : first.flags.ext = true → ∀ e ∈ rest, e.flags.ext = true → e.ext.meBuf ≠ first.ext.meBuf)
  (hlen : ipHlen P.mem first.data * 4 = sizeofIp + n) (optioned : 0 < n) (whole : sizeofIp + n ≤ first.len)
  (nhops : R.nhops = 0) (granted : (Kmem.kmemMalloc A P.kmem msize).1 ≠ 0)
  (forward : inCanforward (ipSrc P.mem first.data) = true ∨
    inClassaNet (ipSrc P.mem first.data) = inLoopbacknet)
  (found : reflectFrom I (ipDst P.mem first.data) first.pkthdr.mpRecvif = some ia)

include wf fits alone hlen optioned whole nhops granted forward found

theorem icmpReflect_sends :
    ∃ first' opts P', icmpReflect A I R P (first :: rest) = some (.sent first' rest (some opts) P') ∧
      Stripped P P' first first' rest n ∧ opts.Fit ∧
      bytes P'.mem opts.data opts.len = [0, 0, 0, 0] ++
        copied n (P.mem (first.data + sizeofIp + n)) (bytes P.mem (first.data + sizeofIp) n) ++ List.replicate
          ((4 + (copied n (P.mem (first.data + sizeofIp + n))
            (bytes P.mem (first.data + sizeofIp) n)).length) % 4) 1 := by
  have fit := fits first List.mem_cons_self
  have below := wf.room_lt List.mem_cons_self
  have four : ipHlen P.mem first.data < 16 := Nat.mod_lt _ (by decide)
  have short : n ≤ 40 := by simp only [sizeofIp] at hlen; omega
  obtain ⟨kept, dst⟩ := addressed_bytes P.mem first.data (ipSrc P.mem first.data) ia.addr
  generalize written : setIpTtl (setIpSrc (setIpDst P.mem first.data (ipSrc P.mem first.data))
    first.data ia.addr) first.data ipMaxttl = mem₀
    at kept dst
  have wf₀ : Wf A { P with mem := mem₀ } (first :: (rest ++ others)) := by
    apply wf.write List.mem_cons_self
    intro x outside
    simp only [Mbuf.Fit] at fit
    simp only [sizeofIp] at whole
    exact kept x (by omega) (by omega)
  obtain ⟨opts, P₁, collects, wf₁, collected⟩ := collectOptions_given wf₀ fit whole short nhops granted
  obtain ⟨mem₂, drops, outside₂, verHlen, tos, len₂, header, moved⟩ :=
    @dropOptions_given P₁ first n fit below whole
  have block := wf₁.block_apart List.mem_cons_self
  have room : Region.Apart first.room opts.room :=
    block.mono ⟨Nat.le_refl _, Nat.le_refl _⟩ (room_within collected.plain)
  have optsFit := collected.fit
  have frame : ∀ x, ¬ (opts.room.addr ≤ x ∧ x < opts.room.stop) → P₁.mem x = mem₀ x :=
    fun x away => collected.frame x away
  have inside : ∀ x, first.data ≤ x → x < first.data + first.len → P₁.mem x = mem₀ x := by
    intro x least most
    apply frame
    simp only [Region.Apart, Mbuf.Fit] at room fit
    omega
  have old : ∀ x, first.data ≤ x → x < first.data + first.len → x ≠ first.data + 8 →
      ¬ (first.data + 12 ≤ x ∧ x < first.data + 20) → P₁.mem x = P.mem x :=
    fun x least most other away => (inside x least most).trans (kept x other away)
  simp only [sizeofIp] at whole hlen header moved
  have firstByte : P₁.mem first.data = P.mem first.data := old _ (by omega) (by omega) (by omega) (by omega)
  have version : ipVer P₁.mem first.data = ipVer P.mem first.data := by rw [ipVer, firstByte, ipVer]
  have nibble : ipVer P.mem first.data < 16 := by
    have := (P.mem first.data).toNat_lt
    simp only [ipVer]
    omega
  have newByte : (mem₂ first.data).toNat = ipVer P.mem first.data * 16 + 5 := by
    rw [verHlen, version]
    exact Nat.mod_eq_of_lt (by omega)
  have others' : flatten mem₂ rest = flatten P.mem rest := by
    apply List.flatMap_congr
    intro e member
    apply bytes_congr
    intro x least most
    have apart := wf.rooms_alone (List.mem_append_left others member) (fun held => alone held e member)
    have away :=
      (wf₁.rooms_apart collected.plain (List.mem_cons_of_mem first (List.mem_append_left others member)))
    have fitE := fits e (List.mem_cons_of_mem _ member)
    simp only [Region.Apart, Mbuf.Fit] at apart away fitE fit
    rw [outside₂ x (by omega), frame x (by omega), kept x (by omega) (by omega)]
  have data : (shortened first n).data = first.data := rfl
  refine ⟨shortened first n, opts, { P₁ with mem := mem₂ }, ?_,
    ⟨?_, ?_, ?_, ?_, ?_, ?_, ?_, ?_, ?_, ?_, rfl, ?_⟩, optsFit, ?_⟩
  · have allowed : ¬ (¬ inCanforward (ipSrc P.mem first.data) = true ∧
        inClassaNet (ipSrc P.mem first.data) ≠ inLoopbacknet) := by
      rintro ⟨first, second⟩
      exact forward.elim first second
    have byte : mem₀ first.data = P.mem first.data := kept _ (by omega) (by omega)
    have optlen : ((ipHlen mem₀ first.data : Nat) : Int) * 4 - sizeofIp = n := by
      rw [ipHlen, byte, ← ipHlen]
      simp only [sizeofIp]
      omega
    rw [icmpReflect, if_neg allowed]
    simp only [found, written, optlen, collects, Int.toNat_natCast, drops]
    rw [if_pos (by omega)]
    rfl
  · rw [ipVer, shortened, newByte]
    omega
  · rw [ipHlen, shortened, newByte]
    simp only [sizeofIp]
    omega
  · exact tos.trans (old _ (by omega) (by omega) (by omega) (by omega))
  · rw [shortened, len₂]
    congr 1
    exact get16_congr fun x least most => old x (by omega) (by omega) (by omega) (by omega)
  · rw [data]
    exact get16_congr fun x least most => (header x (by omega) (by omega)).trans
      (old x (by omega) (by omega) (by omega) (by omega))
  · rw [data]
    exact get16_congr fun x least most => (header x (by omega) (by omega)).trans
      (old x (by omega) (by omega) (by omega) (by omega))
  · rw [data]
    exact (header _ (by omega) (by omega)).trans (old _ (by omega) (by omega) (by omega) (by omega))
  · rw [data]
    exact get16_congr fun x least most => (header x (by omega) (by omega)).trans
      (old x (by omega) (by omega) (by omega) (by omega))
  · rw [← dst, data]
    exact get32_congr fun x least most => (header x (by omega) (by omega)).trans
      (inside x (by omega) (by omega))
  · have length : (shortened first n).len = first.len - n := rfl
    rw [flatten_cons, flatten_cons, length, data, others',
      List.drop_append_of_le_length (by rw [bytes_length]; simp only [sizeofIp]; omega),
      List.drop_append_of_le_length (by rw [bytes_length]; simp only [sizeofIp]; omega),
      bytes_drop _ (by simp only [sizeofIp]; omega), bytes_drop _ (by simp only [sizeofIp]; omega)]
    simp only [sizeofIp]
    rw [moved, ← Nat.add_assoc, Nat.sub_sub, Nat.add_comm n 20]
    congr 1
    exact bytes_congr fun x least most => old x (by omega) (by omega) (by omega) (by omega)
  · intro flagged
    simp only [shortened, flagged, if_true]
  · have same : bytes mem₂ opts.data opts.len = bytes P₁.mem opts.data opts.len := by
      apply bytes_congr
      intro x least most
      apply outside₂
      simp only [Region.Apart, Mbuf.Fit] at room fit optsFit
      omega
    have area : bytes mem₀ (first.data + sizeofIp) n = bytes P.mem (first.data + sizeofIp) n :=
      bytes_congr fun x least most => kept x (by simp only [sizeofIp] at least; omega)
        (by simp only [sizeofIp] at least; omega)
    have next : mem₀ (first.data + sizeofIp + n) = P.mem (first.data + sizeofIp + n) :=
      kept _ (by simp only [sizeofIp]; omega) (by simp only [sizeofIp]; omega)
    have held := collected.data
    simp only at held
    rw [area, next] at held
    exact same.trans held

/-- The options are passed on as they should be exactly when the RR and TS options are of an even
    length together, and the last option byte is not one of their codes before a byte 1 of the
    payload. -/
theorem icmp_reflect_options_iff :
    (∃ first' opts P', icmpReflect A I R P (first :: rest) = some (.sent first' rest (some opts) P') ∧
        Separated P P' first first' opts rest n) ↔
      (recorded (bytes P.mem (first.data + sizeofIp) n)).length % 2 = 0 ∧
        ¬ (Cut (bytes P.mem (first.data + sizeofIp) n) ∧ P.mem (first.data + sizeofIp + n) = 1) := by
  obtain ⟨first', opts, P', sends, stripped, fit, data⟩ :=
    icmpReflect_sends wf fits alone hlen optioned whole nhops granted forward found
  have size := congrArg List.length data
  simp only [bytes_length, List.length_append, List.length_cons, List.length_nil,
    List.length_replicate] at size
  have padded := padded_iff (bytes P.mem (first.data + sizeofIp) n) (P.mem (first.data + sizeofIp + n))
  rw [bytes_length] at padded
  rw [← padded]
  constructor
  · rintro ⟨first'', opts', P'', sends', separated⟩
    rw [sends] at sends'
    simp only [Option.some.injEq, Reflected.sent.injEq, true_and] at sends'
    obtain ⟨rfl, rfl, rfl⟩ := sends'
    have aligned := separated.aligned
    refine ⟨?_, by omega⟩
    obtain ⟨pad, less, held⟩ := separated.options
    exact ⟨pad, less, data.symm.trans held⟩
  · rintro ⟨⟨pad, less, held⟩, aligned⟩
    exact ⟨first', opts, P', sends, stripped, fit, ⟨pad, less, data.trans held⟩, by omega⟩

end

abbrev optionedHeader (option : List UInt8) : List UInt8 :=
  [0x47, 0] ++ bytes16 32 ++ [0, 0, 0, 0, 64, 1, 0, 0] ++ bytes32 (htonl 0xc0a80109) ++
    bytes32 (htonl 0xc0a80105) ++ option ++
    [9, 9, 9, 9]
abbrev optioned : Mbuf :=
  { mbufOf pktGet with data := (mbufOf pktGet).data + 40, len := 32, pkthdr := ⟨32, 0⟩ }
abbrev optionedPool (option : List UInt8) : Pool :=
  { pktGet.2 with mem := write pktGet.2.mem optioned.data (optionedHeader option) }
abbrev oneHost : Ifaddrs := ⟨[⟨htonl 0xc0a80105, 0, false⟩], fun _ _ => none⟩
abbrev noRoute : IpSrcrt := ⟨0, 0, (0, 0), fun _ => 0⟩
abbrev stampOption : List UInt8 := [68, 8, 5, 0, 0, 0, 0, 0]
abbrev recordOption : List UInt8 := [7, 7, 4, 0, 0, 0, 0, 0]

abbrev optionBytes (option : List UInt8) : List UInt8 :=
  bytes (optionedPool option).mem (optioned.data + sizeofIp) 8
abbrev optionEnd (option : List UInt8) : UInt8 := (optionedPool option).mem (optioned.data + sizeofIp + 8)

theorem optioned_answers :
    (optioned.room.addr ≤ optioned.data ∧ optioned.data + 32 ≤ optioned.room.stop) ∧
    (∀ option ∈ [stampOption, recordOption],
      ipHlen (optionedPool option).mem optioned.data * 4 = sizeofIp + 8 ∧
      (Kmem.kmemMalloc Kmem.board (optionedPool option).kmem msize).1 ≠ 0 ∧
      inCanforward (ipSrc (optionedPool option).mem optioned.data) = true ∧
      reflectFrom oneHost (ipDst (optionedPool option).mem optioned.data) optioned.pkthdr.mpRecvif =
        some ⟨htonl 0xc0a80105, 0, false⟩) ∧
    ((recorded (optionBytes stampOption)).length % 2 = 0 ∧
      ¬ (Cut (optionBytes stampOption) ∧ optionEnd stampOption = 1)) ∧
    (copied 8 (optionEnd recordOption) (optionBytes recordOption)).length = 7 := by
  decide +kernel

theorem optioned_wf {option : List UInt8} (length : option.length = 8) :
    Wf Kmem.board (optionedPool option) [optioned] := by
  have edit := @Reachable.edit_head _ _ _ _ _ optioned pktGet_reachable rfl rfl rfl rfl
  apply edit.wf.write List.mem_cons_self
  intro x outside
  apply write_outside
  have size : (optionedHeader option).length = 32 := by
    simp only [optionedHeader, List.length_append, length]
    rfl
  obtain ⟨low, high⟩ := optioned_answers.1
  omega

theorem optioned_fits : ∀ e ∈ [optioned], e.Fit := by
  rw [List.forall_mem_singleton]
  exact optioned_answers.1

theorem stamp_reflected :
    ∃ first' opts P', icmpReflect Kmem.board oneHost noRoute (optionedPool stampOption) [optioned] =
        some (.sent first' [] (some opts) P') ∧ Separated (optionedPool stampOption)
          P' optioned first' opts [] 8 := by
  obtain ⟨-, answers, right, -⟩ := optioned_answers
  obtain ⟨long, granted, forward, source⟩ := answers stampOption List.mem_cons_self
  exact (@icmp_reflect_options_iff Kmem.board (optionedPool stampOption) optioned []
    oneHost noRoute 8 ⟨htonl 0xc0a80105, 0, false⟩ []
    (optioned_wf rfl) optioned_fits (fun _ _ member => absurd member List.not_mem_nil) long
      (by decide) (by decide) rfl granted
    (.inl forward) source).mpr right

/-- A record route option of seven bytes is followed by three `NOP`s where it takes one. -/
theorem record_misaligned :
    ¬ ∃ first' opts P', icmpReflect Kmem.board oneHost noRoute (optionedPool recordOption) [optioned] =
        some (.sent first' [] (some opts) P') ∧ Separated (optionedPool recordOption)
          P' optioned first' opts [] 8 := by
  obtain ⟨-, answers, -, seven⟩ := optioned_answers
  obtain ⟨long, granted, forward, source⟩ := answers recordOption (List.mem_cons_of_mem _ List.mem_cons_self)
  obtain ⟨first', opts, P', sends, -, -, data⟩ :=
    @icmpReflect_sends Kmem.board (optionedPool recordOption) optioned [] oneHost noRoute 8
    ⟨htonl 0xc0a80105, 0, false⟩ [] (optioned_wf rfl) optioned_fits
      (fun _ _ member => absurd member List.not_mem_nil) long
    (by decide) (by decide) rfl granted (.inl forward) source
  rintro ⟨first'', opts', P'', sends', separated⟩
  rw [sends] at sends'
  simp only [Option.some.injEq, Reflected.sent.injEq, true_and] at sends'
  obtain ⟨rfl, rfl, rfl⟩ := sends'
  have size := congrArg List.length data
  rw [bytes_length, List.length_append, List.length_append, List.length_replicate, seven] at size
  have fourteen : opts.len = 14 := size
  exact absurd separated.aligned (by rw [fourteen]; decide)

end Embryo.Inet
