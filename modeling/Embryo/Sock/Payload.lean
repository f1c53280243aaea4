import Embryo.Machine.Splice
import Embryo.Sock.Consume
import Embryo.Uipc.Slice

namespace Embryo.Sock

open Embryo.Machine Embryo.Uipc
open Embryo.Kmem (Arena pageSize kmemSize)

/-- The loop of `uiomove` with `UIO_WRITE`. It goes round in one unit only to find it used up. -/
def moveIn (mem : Memory) : List (List UInt8) → Nat → Nat → Nat → Memory × Outgoing
  | [], _, _, resid => (mem, ⟨[], resid⟩)
  | l :: iov, cp, len, resid =>
    if len = 0 ∨ resid = 0 then (mem, ⟨l :: iov, resid⟩)
    else
      let cnt := min len l.length
      let mem := write mem cp (l.take cnt)
      if len - cnt = 0 ∨ wsub resid cnt = 0 then (mem, ⟨l.drop cnt :: iov, wsub resid cnt⟩)
      else moveIn mem iov (cp + cnt) (len - cnt) (wsub resid cnt)

theorem moveIn_spec {mem : Memory} {iov : List (List UInt8)} {cp len resid : Nat} (le : len ≤ resid)
    (whole : resid = iov.flatten.length)
    (word : resid < 2^32) : (moveIn mem iov cp len resid).1 = write mem cp (iov.flatten.take len) ∧
      (moveIn mem iov cp len resid).2.iov.flatten = iov.flatten.drop len ∧
        (moveIn mem iov cp len resid).2.resid = resid - len := by
  induction iov generalizing mem cp len resid with
  | nil =>
    have zero : len = 0 := by
      rw [List.flatten_nil, List.length_nil] at whole
      omega
    rw [moveIn, zero]
    exact ⟨(write_nil mem cp).symm, rfl, rfl⟩
  | cons l iov ih =>
    rw [List.flatten_cons, List.length_append] at whole
    rw [moveIn]
    split
    · rename_i done
      have zero : len = 0 := by omega
      rw [zero, List.take_zero, write_nil]
      exact ⟨rfl, rfl, rfl⟩
    · rename_i more
      dsimp only
      have less : wsub resid (min len l.length) = resid - min len l.length := wsub_of_le (by omega) word
      rw [less, List.flatten_cons]
      split
      · rename_i done
        by_cases inUnit : len ≤ l.length
        · rw [Nat.min_eq_left inUnit, List.take_append_of_le_length inUnit, List.flatten_cons,
            List.drop_append_of_le_length inUnit]
          exact ⟨rfl, rfl, rfl⟩
        · -- the unit is the last one with bytes
          exfalso
          omega
      · rename_i onward
        have beyond : l.length ≤ len := by omega
        rw [Nat.min_eq_right beyond, List.take_length]
        obtain ⟨mem', iov', resid'⟩ := @ih (write mem cp l) (cp + l.length) (len - l.length)
          (resid - l.length) (by omega) (by omega) (by omega)
        rw [mem', iov', resid', write_append]
        refine ⟨?_, ?_, by omega⟩
        · rw [List.take_append, List.take_of_length_le beyond]
        · rw [List.drop_append, List.drop_of_length_le beyond, List.nil_append]

def mtData : Nat := 2

def Sound (A : Arena) (P : Pool) : Prop := ∃ live, Wf A P live

variable {A : Arena} {τ : Type}

/-- What other processes do while a call waits for the lock or for space, and what the protocol
    does, to the pool and a state of their own. -/
structure Others (A : Arena) (τ : Type) where
  sock : Pool × τ → SendSide
  sblock : Bool → Pool × τ → Nat × (Pool × τ)
  sbunlock : Pool × τ → Pool × τ
  sbwait : Pool × τ → Nat × (Pool × τ)
  usrreq : Handed (Pool × τ) → Nat × (Pool × τ)
  sblock_sound : ∀ d e, Sound A e.1 → Sound A (sblock d e).2.1
  sbunlock_sound : ∀ e, Sound A e.1 → Sound A (sbunlock e).1
  sbwait_sound : ∀ e, Sound A e.1 → Sound A (sbwait e).2.1

def poolEnv (W : Others A τ) : Env (Pool × τ) where
  sock := W.sock
  sblock := W.sblock
  sbunlock := W.sbunlock
  sbwait := W.sbwait
  take pkt e := ((mbufTake A e.1 mtData pkt).1, ((mbufTake A e.1 mtData pkt).2, e.2))
  getext m e := (mbufGetext A e.1 m).map fun r => (r.1, r.2.1, (r.2.2, e.2))
  uiomove m len uio e :=
    let r := moveIn e.1.mem uio.iov m.data len uio.resid
    some (0, r.2, ({ e.1 with mem := r.1 }, e.2))
  bump m len e := ({ e.1 with mem := store32 e.1.mem m.dat (wrap (load32 e.1.mem m.dat + len)) }, e.2)
  usrreq := W.usrreq
  freem chain e := (mbufFreem A e.1 chain).map fun P => (P, e.2)
  getext_addr m e r extended := by
    obtain ⟨r, given, rfl⟩ := Option.map_eq_some_iff.mp extended
    unfold mbufGetext at given
    split at given
    · cases given
    · cases given
      dsimp only
      split <;> rfl

def Stocked (P : Pool) : Prop := P.mclfree ≠ 0 ∨ P.kmem.kmemoffs + pageSize ≤ refEntries * mclBytes

variable {W : Others A τ} {P : Pool} {live : List Mbuf} {t : τ}

theorem Wf.getext_stocked {m : Mbuf} (wf : Wf A P (m :: live)) (plain : m.flags.ext = false)
    (stocked : Stocked P) :
    ∃ c P', mbufGetext A P m = some (0, m.extend c, P') ∧ Wf A P' (m.extend c :: live) ∧
      Calm P P' (m :: live) ∧
      ∀ e ∈ live, e.holds c = false := by
  rcases wf.getext plain (stocked.imp_right .inl) with ⟨c, P', given, wf', calm, -, -, alone⟩
    | ⟨none, full, -⟩
  · exact ⟨c, P', given, wf', calm, alone⟩
  · rcases stocked with some | reach
    · exact absurd none some
    · simp only [refEntries, refTable, mclBytes, mclShift, sizeofLong, kmemSize, Kmem.clBytes, pageSize] at *
      omega

/-- The storage of a fresh mbuf: its own, or a cluster that no other mbuf holds, with the data inside. -/
structure Stored (A : Arena) (P P' : Pool) (n m : Mbuf) (live : List Mbuf) (len room : Nat) : Prop where
  wf : Wf A P' (m :: live)
  calm : Calm P P' live
  alone : m.flags.ext = true → ∀ e ∈ live, e.holds m.ext.meBuf = false
  header : m.flags.pkthdr = n.flags.pkthdr ∧ m.pkthdr = n.pkthdr
  low : m.room.addr ≤ m.data
  high : m.data + len ≤ m.room.stop
  len : len ≤ room

theorem placeData_stored {n : Mbuf} {resid space : Nat} (wf : Wf A P (n :: live))
    (plain : n.flags.ext = false) (start : n.data = if n.flags.pkthdr then n.pktdat else n.dat)
    (fits : resid ≤ space) (stocked : resid ≥ minmclsize → space ≥ mclBytes → Stocked P) :
    ∃ m P', placeData (poolEnv W) true n.flags.pkthdr resid space n (P, t) =
        some (m, min (if n.flags.pkthdr then mhlen else mlen) resid, (P', t)) ∧
      Stored A P P' n m live (min (if n.flags.pkthdr then mhlen else mlen) resid)
      (if n.flags.pkthdr then mhlen else mlen) := by
  have rooms : (if n.flags.pkthdr = true then mhlen else mlen) ≤ 108 ∧
      100 ≤ (if n.flags.pkthdr = true then mhlen else mlen) := by
    split <;> decide
  have short : ∀ room, min (min room space) resid = min room resid := by
    intro room
    omega
  unfold placeData
  simp only [true_and, short]
  by_cases large : resid ≥ minmclsize ∧ space ≥ mclBytes
  · -- the data goes into a cluster
    rw [if_pos large]
    obtain ⟨c, P', given, wf', calm, alone⟩ := Wf.getext_stocked wf plain (stocked large.1 large.2)
    have extended : (poolEnv W).getext n (P, t) = some (0, n.extend c, (P', t)) := by
      simp only [poolEnv, given, Option.map_some]
    have whole : ¬ (n.flags.pkthdr = true ∧ min (if n.flags.pkthdr = true then mhlen else mlen)
        resid < if n.flags.pkthdr = true then mhlen else mlen) := by
      have least : 209 ≤ resid := large.1
      omega
    rw [extended]
    simp only [if_true, if_neg whole]
    refine ⟨n.extend c, P', rfl, wf', calm.mono fun m member => List.mem_cons_of_mem n member,
      fun _ => alone, ⟨rfl, rfl⟩, Nat.le_refl _, ?_, ?_⟩
    · have small : min (if n.flags.pkthdr = true then mhlen else mlen) resid ≤ mclBytes := by
        have size : mclBytes = 2048 := rfl
        omega
      exact Nat.add_le_add_left small c
    · omega
  · -- it goes into the mbuf itself
    rw [if_neg large]
    refine ⟨_, P, rfl, ?_⟩
    have inner : n.room.addr = n.data ∧ n.room.stop = n.data +
        (if n.flags.pkthdr = true then mhlen else mlen) := by
      rw [Mbuf.room, if_neg (by rw [plain]; decide), start]
      split <;> exact ⟨rfl, rfl⟩
    by_cases aligned : n.flags.pkthdr = true ∧ min (if n.flags.pkthdr = true then mhlen else mlen)
      resid < if n.flags.pkthdr = true then mhlen else mlen
    · rw [if_pos aligned]
      refine ⟨wf.adjust rfl rfl rfl fun _ => rfl, .refl P live, fun shared =>
        absurd (plain.symm.trans shared) (by decide), ⟨rfl, rfl⟩, ?_, ?_, by omega⟩
      · change n.room.addr ≤ n.data + _
        rw [inner.1]
        exact Nat.le_add_right _ _
      · change n.data + _ + _ ≤ n.room.stop
        rw [if_pos aligned.1] at aligned inner ⊢
        rw [inner.2]
        simp only [sizeofLong]
        omega
    · rw [if_neg aligned]
      refine ⟨wf, .refl P live, fun shared => absurd (plain.symm.trans shared) (by decide),
        ⟨rfl, rfl⟩, ?_, ?_, by omega⟩
      · rw [inner.1]
      · rw [inner.2]
        omega

structure Headed (chain : Chain) : Prop where
  first : ∃ first rest, chain = first :: rest ∧ first.flags.pkthdr = true ∧
    (∀ m ∈ rest, m.flags.pkthdr = false) ∧ first.pkthdr.mpLen = total chain

structure Housed (A : Arena) (P : Pool) (chain : Chain) : Prop where
  wf : ∃ live, Wf A P (chain ++ live)
  fits : ∀ m ∈ chain, m.Fit
  apart : chain.Pairwise fun m n => Region.Apart m.room n.room

structure Building (A : Arena) (whole : List UInt8) (s : Sending (Pool × τ)) : Prop where
  housed : Housed A s.e.1 s.top
  data : flatten s.e.1.mem s.top ++ s.uio.iov.flatten = whole
  resid : s.uio.resid = s.uio.iov.flatten.length ∧ s.resid = s.uio.resid
  fits : s.resid ≤ s.space ∧ s.space < 2^32
  head : s.top = [] ∧ s.mpTop = true ∨ Headed s.top ∧ s.mpTop = false
  word : whole.length < 2^32

structure Built (A : Arena) (whole : List UInt8) (P : Pool) (chain : Chain) : Prop where
  housed : Housed A P chain
  data : flatten P.mem chain = whole
  head : Headed chain

def Answered (A : Arena) (s : Sending (Pool × τ)) : Prop :=
  s.resid ≥ minmclsize → s.space ≥ mclBytes → Stocked (mbufTake A s.e.1 mtData s.top.isEmpty).2

theorem Stored.link {P' : Pool} {n m : Mbuf} {chain live : Chain} {xs : List UInt8} {room : Nat}
    (stored : Stored A P P' n m (chain ++ live) xs.length room) (fits : ∀ e ∈ chain, e.Fit)
    (apart : chain.Pairwise fun m n => Region.Apart m.room n.room) :
    let linked := chain ++ [{ m with len := xs.length }]
    Housed A { P' with mem := write P'.mem m.data xs } linked ∧
      flatten (write P'.mem m.data xs) linked = flatten P.mem chain ++ xs := by
  intro linked
  have alone : ∀ e ∈ chain ++ live, Region.Apart e.room m.room := by
    intro e member
    apply stored.wf.rooms_alone member
    intro shared shared'
    have free := stored.alone shared e member
    simp only [Mbuf.holds, shared', Bool.true_and, beq_eq_false_iff_ne] at free
    exact free
  have kept := stored.calm.flatten_eq (fun e member => List.mem_append_left live member) fits
  have away : flatten (write P'.mem m.data xs) chain = flatten P'.mem chain := by
    apply List.flatMap_congr
    intro e member
    apply bytes_congr
    intro x low high
    have inside := fits e member
    have separate := alone e (List.mem_append_left live member)
    have start := stored.low
    have stop := stored.high
    apply write_outside
    simp only [Mbuf.Fit, Region.Apart, Region.stop] at *
    omega
  have written : Wf A { P' with mem := write P'.mem m.data xs } (m :: (chain ++ live)) := by
    apply stored.wf.write List.mem_cons_self
    intro x outside
    have start := stored.low
    have stop := stored.high
    apply write_outside
    omega
  refine ⟨⟨⟨live, ?_⟩, ?_, ?_⟩, ?_⟩
  · have set : Wf A { P' with mem := write P'.mem m.data xs }
        ({ m with len := xs.length } :: (chain ++ live)) :=
      written.adjust rfl rfl rfl fun _ => rfl
    apply set.perm
    rw [List.append_assoc]
    exact List.perm_middle.symm
  · intro e member
    rcases List.mem_append.mp member with old | new
    · exact fits e old
    · rw [List.mem_singleton.mp new]
      exact ⟨stored.low, stored.high⟩
  · apply List.pairwise_append.mpr
    refine ⟨apart, List.pairwise_singleton _ _, fun e old new member => ?_⟩
    rw [List.mem_singleton.mp member]
    exact alone e (List.mem_append_left live old)
  · rw [flatten_append, away, kept, flatten_cons]
    change _ ++ (bytes (write P'.mem m.data xs) m.data xs.length ++ []) = _
    rw [bytes_write, List.append_nil]

structure Alike (m m' : Mbuf) : Prop where
  addr : m'.addr = m.addr
  type : m'.type = m.type
  ext : m'.ext = m.ext
  shared : m'.flags.ext = m.flags.ext
  pkthdr : m'.flags.pkthdr = m.flags.pkthdr
  data : m'.data = m.data
  len : m'.len = m.len

theorem Alike.room {m m' : Mbuf} (alike : Alike m m') : m'.room = m.room := by
  simp only [Mbuf.room, Mbuf.pktdat, Mbuf.dat, alike.shared, alike.pkthdr, alike.ext, alike.addr]

theorem Housed.alike {first first' : Mbuf} {rest : Chain} (housed : Housed A P (first :: rest))
    (alike : Alike first first') :
    Housed A P (first' :: rest) := by
  obtain ⟨live, wf⟩ := housed.wf
  refine ⟨⟨live, wf.adjust alike.addr alike.type alike.shared fun _ => alike.ext⟩, fun m member => ?_, ?_⟩
  · rcases List.mem_cons.mp member with rfl | member
    · have fit := housed.fits first List.mem_cons_self
      rw [Mbuf.Fit, alike.room, alike.data, alike.len]
      exact fit
    · exact housed.fits m (List.mem_cons_of_mem first member)
  · have apart := List.pairwise_cons.mp housed.apart
    refine List.pairwise_cons.mpr ⟨fun m member => ?_, apart.2⟩
    rw [alike.room]
    exact apart.1 m member

theorem flatten_alike {mem : Memory} {first first' : Mbuf} {rest : Chain} (alike : Alike first first') :
    flatten mem (first' :: rest) = flatten mem (first :: rest) := by
  rw [flatten_cons, flatten_cons, alike.data, alike.len]

theorem Built.eor {whole : List UInt8} {chain : Chain} (built : Built A whole P chain) :
    Built A whole P (markEor chain) := by
  obtain ⟨first, rest, rfl, flagged, plain, mpLen⟩ := built.head.first
  have alike : Alike first { first with flags := { first.flags with eor := true } } :=
    ⟨rfl, rfl, rfl, rfl, rfl, rfl, rfl⟩
  exact ⟨built.housed.alike alike, (flatten_alike alike).trans built.data,
    ⟨_, rest, rfl, flagged, plain, mpLen⟩⟩

theorem addMpLen_headed {chain : Chain} {m : Mbuf} {mpTop : Bool} {mem : Memory} {e : Pool × τ}
    (head : chain = [] ∧ mpTop = true ∧ m.flags.pkthdr = true ∧ m.pkthdr.mpLen = 0 ∨
      Headed chain ∧ mpTop = false ∧ m.flags.pkthdr = false)
    (housed : Housed A P (chain ++ [m])) (word : total (chain ++ [m]) < 2^32) :
    ∃ top, addMpLen (poolEnv W) (link mpTop chain m) m.len e = (top, e) ∧ Headed top ∧ Housed A P top ∧
      flatten mem top = flatten mem (chain ++ [m]) := by
  rcases head with ⟨rfl, rfl, flagged, zero⟩ | ⟨⟨first, rest, rfl, flagged, plain, mpLen⟩, rfl, bare⟩
  · have small : wrap (0 + m.len) = m.len := by
      rw [Nat.zero_add]
      exact wrap_of_lt (by simpa [total] using word)
    have alike : Alike m { m with pkthdr := { m.pkthdr with mpLen := m.len } } :=
      ⟨rfl, rfl, rfl, rfl, rfl, rfl, rfl⟩
    refine ⟨[{ m with pkthdr := { m.pkthdr with mpLen := m.len } }], ?_,
      ⟨_, [], rfl, flagged, List.forall_mem_nil _, rfl⟩, housed.alike alike,
      flatten_alike alike⟩
    simp only [link, if_true, addMpLen, flagged, zero, small]
  · rw [List.cons_append] at word housed ⊢
    have sum : total (first :: (rest ++ [m])) = total (first :: rest) + m.len := by
      rw [← List.cons_append, total_append]
      rfl
    have small : wrap (first.pkthdr.mpLen + m.len) = total (first :: (rest ++ [m])) := by
      rw [mpLen, ← sum]
      exact wrap_of_lt word
    have alike : Alike first { first with
        pkthdr := { first.pkthdr with mpLen := total (first :: (rest ++ [m])) } } :=
      ⟨rfl, rfl, rfl, rfl, rfl, rfl, rfl⟩
    refine ⟨{ first with
      pkthdr := { first.pkthdr with mpLen := total (first :: (rest ++ [m])) } } :: (rest ++ [m]), ?_,
      ⟨_, rest ++ [m], rfl, flagged, fun e member => ?_, ?_⟩, housed.alike alike, flatten_alike alike⟩
    · simp only [link, Bool.false_eq_true, if_false, List.cons_append, addMpLen, flagged, small, if_true]
    · rcases List.mem_append.mp member with old | new
      · exact plain e old
      · rw [List.mem_singleton.mp new]
        exact bare
    · rw [total_cons, total_cons]

theorem fillPass_builds {whole : List UInt8} {eor : Bool} {s : Sending (Pool × τ)}
    (building : Building A whole s) (answered : Answered A s) :
    (∀ s', fillPass (poolEnv W) true eor s = some (.again s') → Building A whole s') ∧
      ∀ s', fillPass (poolEnv W) true eor s = some (.leave (true, s')) → s'.resid = 0 ∧
        Built A whole s'.e.1 s'.top := by
  obtain ⟨⟨⟨live, wf⟩, fits, apart⟩, data, ⟨rest, resid⟩, ⟨roomy, small⟩, head, word⟩ := building
  have pkt : s.top.isEmpty = s.mpTop := by
    rcases head with ⟨none, top⟩ | ⟨⟨first, behind, some, -⟩, top⟩
    · rw [none, top]
      rfl
    · rw [some, top]
      rfl
  have bound : s.resid ≤ whole.length := by
    rw [resid, rest, ← data, List.length_append]
    omega
  unfold fillPass
  dsimp only
  rcases wf.take (show mtData < 256 by decide) s.top.isEmpty with ⟨-, failed⟩ | ⟨p, k, -, -, given, wf'⟩
  · have taken : (poolEnv W).take s.top.isEmpty s.e = (none, (s.e.1, s.e.2)) := by simp only [poolEnv, failed]
    rw [taken]
    constructor
    · intro s' again
      cases again
    · intro s' leave
      cases leave
  have taken : (poolEnv W).take s.top.isEmpty s.e =
      (some (initial (s.e.1.stale p) p mtData s.top.isEmpty), (took s.e.1 k p mtData, s.e.2)) := by
        simp only [poolEnv, given]
  rw [Answered, given] at answered
  rw [taken]
  dsimp only
  generalize isFresh : (if s.top.isEmpty = true then
    { initial (s.e.1.stale p) p mtData s.top.isEmpty with pkthdr := ⟨0, 0⟩ }
    else initial (s.e.1.stale p) p mtData s.top.isEmpty) = n
  have fresh : Wf A (took s.e.1 k p mtData) (n :: (s.top ++ live)) ∧
    n.flags = { noFlags with pkthdr := s.top.isEmpty } ∧
      (n.data = if n.flags.pkthdr then n.pktdat else n.dat) ∧
          (s.top.isEmpty = true → n.pkthdr.mpLen = 0) := by
    rw [← isFresh]
    cases empty : s.top.isEmpty with
    | true => exact ⟨wf'.adjust rfl rfl rfl fun _ => rfl, rfl, rfl, fun _ => rfl⟩
    | false =>
      rw [empty] at wf'
      exact ⟨wf', rfl, rfl, fun isTrue => absurd isTrue Bool.false_ne_true⟩
  obtain ⟨wfN, flags, start, zero⟩ := fresh
  have isPkt : n.flags.pkthdr = s.top.isEmpty := by rw [flags]
  obtain ⟨m, P', placed, stored⟩ := @placeData_stored A τ W (took s.e.1 k p mtData) (s.top ++ live)
    s.e.2 n s.resid s.space wfN
    (by rw [flags]; rfl) start roomy answered
  have rooms : 100 ≤ if n.flags.pkthdr = true then mhlen else mlen := by split <;> decide
  generalize (if n.flags.pkthdr = true then mhlen else mlen) = room at placed stored rooms
  generalize isLen : min room s.resid = len at placed stored
  rw [← isPkt, placed]
  dsimp only
  have le : len ≤ s.uio.resid := by omega
  obtain ⟨mem, iov, left⟩ := @moveIn_spec P'.mem s.uio.iov m.data len s.uio.resid le rest (by omega)
  have moved : (poolEnv W).uiomove m len s.uio (P', s.e.2) =
      some (0, (moveIn P'.mem s.uio.iov m.data len s.uio.resid).2,
          ({ P' with mem := write P'.mem m.data (s.uio.iov.flatten.take len) }, s.e.2)) := by
    simp only [poolEnv, mem]
  rw [moved]
  dsimp only
  generalize (moveIn P'.mem s.uio.iov m.data len s.uio.resid).2 = uio at iov left
  have count : (s.uio.iov.flatten.take len).length = len := by
    rw [List.length_take]
    omega
  have parts := List.take_append_drop len s.uio.iov.flatten
  generalize s.uio.iov.flatten.take len = xs at count parts ⊢
  subst count
  obtain ⟨housed, flat⟩ := stored.link fits apart
  have sum : flatten (write P'.mem m.data xs) (s.top ++ [{ m with len := xs.length }]) ++
      uio.iov.flatten = whole := by
    rw [flat, iov, List.append_assoc, parts]
    exact data
  have less : total (s.top ++ [{ m with len := xs.length }]) ≤ whole.length := by
    rw [← sum, List.length_append, flatten_length]
    omega
  have heading : s.top = [] ∧ s.mpTop = true ∧ m.flags.pkthdr = true ∧ m.pkthdr.mpLen = 0 ∨
      Headed s.top ∧ s.mpTop = false ∧ m.flags.pkthdr = false := by
    rw [stored.header.1, stored.header.2, isPkt, pkt]
    apply head.imp
    · rintro ⟨none, isTop⟩
      exact ⟨none, isTop, isTop, zero (pkt.trans isTop)⟩
    · rintro ⟨headed, isTop⟩
      exact ⟨headed, isTop, isTop⟩
  obtain ⟨top, added, headed, housed', flat'⟩ :=
    @addMpLen_headed A τ W _ s.top { m with len := xs.length } s.mpTop
    (write P'.mem m.data xs) ({ P' with mem := write P'.mem m.data xs }, s.e.2) heading housed (by omega)
  dsimp only at added
  rw [added]
  dsimp only
  rw [if_neg (by decide)]
  have space : wsub s.space xs.length = s.space - xs.length := wsub_of_le (by omega) small
  have whole' : flatten (write P'.mem m.data xs) top ++ uio.iov.flatten = whole := by
    rw [flat']
    exact sum
  have rest' : uio.resid = uio.iov.flatten.length := by
    rw [left, iov, List.length_drop, rest]
  split
  · rename_i done
    have none : uio.iov.flatten = [] := List.length_eq_zero_iff.mp (by omega)
    rw [none, List.append_nil] at whole'
    have built : Built A whole { P' with mem := write P'.mem m.data xs } top := ⟨housed', whole', headed⟩
    constructor
    · intro s' again
      cases again
    · intro s' leave
      split at leave
      · cases leave
        exact ⟨done, built.eor⟩
      · cases leave
        exact ⟨done, built⟩
  · rename_i more
    rw [if_pos ⟨by omega, rfl⟩]
    constructor
    · intro s' again
      cases again
      refine ⟨housed', whole', ⟨rest', rfl⟩, ?_, .inr ⟨headed, rfl⟩, word⟩
      dsimp only
      omega
    · intro s' leave
      cases leave

structure Begins {σ : Type} (E : Env σ) (proto : Proto) (req : SendRequest) (at' : Bool × Sending σ)
    (s : Sending σ) : Prop where
  locked : ∃ s₁, (if at'.1 then (E.sblock req.dontwait at'.2.e).1 = 0 ∧
    s₁ = { at'.2 with e := (E.sblock req.dontwait at'.2.e).2, err := 0, locked := true }
      else s₁ = at'.2) ∧ unsendable proto (E.sock s₁.e) req s₁.resid = none ∧
        tooFull proto (E.sock s₁.e) req s₁.resid s₁.clen = false ∧
    s = { s₁ with mpTop := true, space := wsub (sbspace (E.sock s₁.e).sndsb) s₁.clen }

def entry {σ : Type} (req : SendRequest) (uio : Outgoing) (e : σ) : Bool × Sending σ :=
  (true, ⟨e, uio, sendResid req, 0, controlLen req, req.top, req.control, 0, true, false, [], []⟩)

def AllAnswered (W : Others A τ) (fuel : Nat) (proto : Proto) (req : SendRequest) (uio : Outgoing)
    (e : Pool × τ) : Prop :=
  ∀ at', Visits (outerPass (poolEnv W) fuel proto (onceDontroute proto (W.sock e) req) req)
    (entry req uio e) at' → ∀ s, Begins (poolEnv W) proto req at' s →
    ∀ u, Visits (fillPass (poolEnv W) true req.eor) s u → Answered A u

structure Waiting (A : Arena) (uio : Outgoing) (s : Sending (Pool × τ)) : Prop where
  sound : Sound A s.e.1
  source : s.uio = uio
  resid : s.resid = uio.resid
  top : s.top = []
  handed : s.handed = []

def Carries (A : Arena) (whole : List UInt8) (handed : List (Handed (Pool × τ))) : Prop :=
  ∀ call ∈ handed, Built A whole call.state.1 call.top

section

variable {proto : Proto} {dontroute : Bool} {req : SendRequest} {uio : Outgoing} {fuel : Nat}

theorem build_builds {s s' : Sending (Pool × τ)} {go : Bool} (atomic : atomicSend proto req = true)
    (given : req.uio.isSome = true) (building : Building A uio.iov.flatten s) (none : s.handed = [])
    (answered : ∀ u, Visits (fillPass (poolEnv W) true req.eor) s u → Answered A u)
    (balanced : Balanced req s) (built : build (poolEnv W) fuel proto req s = some (go, s')) :
    s'.handed = [] ∧ (go = true → s'.resid = 0 ∧ Built A uio.iov.flatten s'.e.1 s'.top) := by
  have clear : Clear s := by
    intro isTop
    rcases building.head with ⟨none, -⟩ | ⟨-, other⟩
    · exact none
    · rw [isTop] at other
      cases other
  have kept := (build_filled balanced (fun _ => clear) built).handed
  refine ⟨kept.trans none, ?_⟩
  rintro rfl
  obtain ⟨u, isUio⟩ := Option.isSome_iff_exists.mp given
  rw [build, isUio] at built
  simp only [atomic] at built
  exact loop_visits (Building A uio.iov.flatten) (fun r : Bool × Sending (Pool × τ) => r.1 = true →
    r.2.resid = 0 ∧ Built A uio.iov.flatten r.2.e.1 r.2.top)
    (fun t next visits again held => (fillPass_builds held (answered t visits)).1 next again)
    (fun t r visits leave held go => by
      obtain ⟨go', t'⟩ := r
      cases go
      exact (fillPass_builds held (answered t visits)).2 t' leave) built building rfl

theorem sendLoop_carries {count : Nat} {s s' : Sending (Pool × τ)} {go : Bool}
    (atomic : atomicSend proto req = true) (given : req.uio.isSome = true)
    (building : Building A uio.iov.flatten s) (none : s.handed = [])
    (answered : ∀ u, Visits (fillPass (poolEnv W) true req.eor) s u → Answered A u)
    (balanced : Balanced req s)
    (left : loop (sendPass (poolEnv W) fuel proto dontroute req) count s = some (go, s')) :
    Carries A uio.iov.flatten s'.handed ∧ (go = true → s'.resid = 0) := by
  cases count with
  | zero => cases left
  | succ count =>
    rw [loop] at left
    cases built : build (poolEnv W) fuel proto req s with
    | none =>
      rw [sendPass, built] at left
      cases left
    | some r =>
      obtain ⟨go', t⟩ := r
      obtain ⟨empty, whole⟩ := build_builds atomic given building none answered balanced built
      rw [sendPass, built] at left
      cases go' with
      | false =>
        cases left
        rw [Carries, empty]
        exact ⟨List.forall_mem_nil _, fun isTrue => absurd isTrue Bool.false_ne_true⟩
      | true =>
        obtain ⟨zero, chain⟩ := whole rfl
        have carries : ∀ control addr dontroute, Carries A uio.iov.flatten
            (t.handed ++ [⟨t.e, t.top, control, addr, dontroute⟩]) := by
          intro control addr dontroute call member
          rw [empty, List.nil_append] at member
          rw [List.mem_singleton.mp member]
          exact chain
        dsimp only at left
        split at left
        · cases left
        · rename_i result ended
          split at ended
          · cases ended
            cases left
            exact ⟨carries _ _ _, fun isTrue => absurd isTrue Bool.false_ne_true⟩
          · rw [if_neg (by simp [zero])] at ended
            cases ended
            cases left
            exact ⟨carries _ _ _, fun _ => zero⟩
        · rename_i next ended
          split at ended
          · cases ended
          · rw [if_neg (by simp [zero])] at ended
            cases ended

theorem Waiting.building {s : Sending (Pool × τ)} (atomic : atomicSend proto req = true)
    (given : req.uio = some uio) (whole : uio.resid = uio.iov.flatten.length)
    (waiting : Waiting A uio s) (roomy : tooFull proto (W.sock s.e) req s.resid s.clen = false) :
    Building A uio.iov.flatten { s with
      mpTop := true, space := wsub (sbspace (W.sock s.e).sndsb) s.clen } := by
  have fits := roomy
  simp only [tooFull, given, atomic, Option.isSome_some, true_or, and_true, decide_eq_false_iff_not,
    not_lt] at fits
  have small : sbspace (W.sock s.e).sndsb < 2^32 := lt_of_le_of_lt (Nat.min_le_left _ _) (wrap_lt _)
  have space : wsub (sbspace (W.sock s.e).sndsb) s.clen = sbspace (W.sock s.e).sndsb - s.clen :=
    wsub_of_le (by omega) small
  have resid := waiting.resid
  obtain ⟨live, wf⟩ := waiting.sound
  refine ⟨⟨⟨live, ?_⟩, ?_, ?_⟩, ?_, ⟨?_, ?_⟩, ?_, .inl ⟨waiting.top, rfl⟩, by omega⟩
  · dsimp only
    rw [waiting.top]
    exact wf
  · dsimp only
    rw [waiting.top]
    exact List.forall_mem_nil _
  · dsimp only
    rw [waiting.top]
    exact .nil
  · dsimp only
    rw [waiting.top, waiting.source]
    rfl
  · dsimp only
    rw [waiting.source]
    exact whole
  · dsimp only
    rw [waiting.source]
    exact waiting.resid
  · dsimp only
    omega

theorem lockedPass_carries {at' : Bool × Sending (Pool × τ)} {s : Sending (Pool × τ)}
    (atomic : atomicSend proto req = true)
    (given : req.uio = some uio) (whole : uio.resid = uio.iov.flatten.length)
    (waiting : Waiting A uio s) (between : Between req s)
    (begins : ∀ s', unsendable proto (W.sock s.e) req s.resid = none →
      tooFull proto (W.sock s.e) req s.resid s.clen = false →
      s' = { s with mpTop := true, space := wsub (sbspace (W.sock s.e).sndsb) s.clen } →
        Begins (poolEnv W) proto req at' s')
    (answered : ∀ s, Begins (poolEnv W) proto req at' s →
      ∀ u, Visits (fillPass (poolEnv W) true req.eor) s u → Answered A u) :
    (∀ next, lockedPass (poolEnv W) fuel proto dontroute req s = some (.again next) →
      next.1 = true ∧ Waiting A uio next.2) ∧
      ∀ left, lockedPass (poolEnv W) fuel proto dontroute req s = some (.leave left) →
          Carries A uio.iov.flatten left.2.handed := by
  have nothing : Carries A uio.iov.flatten s.handed := by
    rw [Carries, waiting.handed]
    nofun
  unfold lockedPass
  dsimp only
  cases sendable : unsendable proto ((poolEnv W).sock s.e) req s.resid with
  | some err =>
    refine ⟨nofun, fun left leave => ?_⟩
    cases leave
    exact nothing
  | none =>
    dsimp only
    split
    · split
      · refine ⟨nofun, fun left leave => ?_⟩
        cases leave
        exact nothing
      · split
        · refine ⟨nofun, fun left leave => ?_⟩
          cases leave
          exact nothing
        · refine ⟨fun next again => ?_, nofun⟩
          cases again
          exact ⟨rfl, W.sbwait_sound _ (W.sbunlock_sound _ waiting.sound), waiting.source,
            waiting.resid, waiting.top, waiting.handed⟩
    · rename_i roomy
      have roomy' : tooFull proto (W.sock s.e) req s.resid s.clen = false := by
        rw [Bool.not_eq_true] at roomy
        exact roomy
      have building := waiting.building atomic given whole roomy'
      have inOrder := answered _ (begins _ sendable roomy' rfl)
      have start : Balanced req { s with mpTop := true, space := wsub (sbspace (W.sock s.e).sndsb) s.clen } :=
        between.balanced.same rfl rfl rfl rfl
      have carries := fun go s' => @sendLoop_carries A τ W proto dontroute req uio fuel fuel _ s' go
        atomic (by rw [given]; rfl) building
        waiting.handed inOrder start
      split
      · exact ⟨nofun, nofun⟩
      · rename_i s' ended
        refine ⟨nofun, fun left leave => ?_⟩
        cases leave
        exact (carries _ _ ended).1
      · rename_i s' ended
        obtain ⟨handed, zero⟩ := carries _ _ ended
        rw [if_neg (by simp [zero rfl])]
        refine ⟨nofun, fun left leave => ?_⟩
        cases leave
        exact handed

theorem outerPass_carries {restart : Bool} {s : Sending (Pool × τ)}
    (atomic : atomicSend proto req = true) (given : req.uio = some uio)
    (whole : uio.resid = uio.iov.flatten.length) (isStart : restart = true)
    (waiting : Waiting A uio s) (between : Between req s)
    (answered : ∀ t, Begins (poolEnv W) proto req (restart, s) t →
      ∀ u, Visits (fillPass (poolEnv W) true req.eor) t u → Answered A u) :
    (∀ next, outerPass (poolEnv W) fuel proto dontroute req (restart, s) = some (.again next) →
      next.1 = true ∧ Waiting A uio next.2) ∧
      ∀ left, outerPass (poolEnv W) fuel proto dontroute req (restart, s) = some (.leave left) →
        Carries A uio.iov.flatten left.2.handed := by
  subst isStart
  have nothing : Carries A uio.iov.flatten s.handed := by
    rw [Carries, waiting.handed]
    nofun
  unfold outerPass
  simp only [if_true]
  split
  · refine ⟨nofun, fun left leave => ?_⟩
    cases leave
    exact nothing
  · rename_i obtained
    have zero : (W.sblock req.dontwait s.e).1 = 0 := not_not.mp obtained
    have sound := W.sblock_sound req.dontwait s.e waiting.sound
    have waiting' : Waiting A uio { s with
        e := (W.sblock req.dontwait s.e).2, err := (W.sblock req.dontwait s.e).1, locked := true } :=
      ⟨sound, waiting.source, waiting.resid, waiting.top, waiting.handed⟩
    have between' : Between req { s with
        e := (W.sblock req.dontwait s.e).2, err := (W.sblock req.dontwait s.e).1, locked := true } :=
      ⟨between.balanced.same rfl rfl rfl rfl, between.clear⟩
    refine @lockedPass_carries _ _ _ _ _ _ _ _ (true, s) _ atomic given whole waiting' between'
      (fun t sendable roomy isStart => ?_) answered
    refine ⟨_, ?_, sendable, roomy, isStart⟩
    exact ⟨zero,
      congrArg (fun err => { s with e := (W.sblock req.dontwait s.e).2, err, locked := true }) zero⟩

theorem Begins.building {at' : Bool × Sending (Pool × τ)} {s : Sending (Pool × τ)}
    (begins : Begins (poolEnv W) proto req at' s) (atomic : atomicSend proto req = true)
    (given : req.uio = some uio) (whole : uio.resid = uio.iov.flatten.length)
    (isStart : at'.1 = true) (waiting : Waiting A uio at'.2) : Building A uio.iov.flatten s := by
  obtain ⟨s₁, locked, -, roomy, rfl⟩ := begins
  rw [if_pos isStart] at locked
  obtain ⟨-, rfl⟩ := locked
  exact Waiting.building atomic given whole
    ⟨W.sblock_sound req.dontwait at'.2.e waiting.sound, waiting.source, waiting.resid, waiting.top,
      waiting.handed⟩ roomy

theorem Building.bound {whole : List UInt8} {s : Sending (Pool × τ)}
    (building : Building A whole s) : s.resid ≤ whole.length := by
  rw [building.resid.2, building.resid.1, ← building.data, List.length_append]
  exact Nat.le_add_left _ _

theorem entry_waiting {e : Pool × τ} (given : req.uio = some uio) (none : req.top = [])
    (sound : Sound A e.1) :
    (entry req uio e).1 = true ∧ Waiting A uio (entry req uio e).2 ∧ Outside req (entry req uio e) := by
  have balanced : Balanced req (entry req uio e).2 := by
    rw [Balanced, entry, List.append_nil]
    exact .refl _
  exact ⟨rfl, ⟨sound, rfl, by rw [entry, sendResid, given], none, rfl⟩, ⟨balanced, fun _ => none⟩, rfl⟩

theorem AllAnswered.small {e : Pool × τ} (atomic : proto.atomic = true) (given : req.uio = some uio)
    (whole : uio.resid = uio.iov.flatten.length) (none : req.top = []) (sound : Sound A e.1)
    (short : uio.iov.flatten.length < minmclsize) :
    AllAnswered W fuel proto req uio e := by
  have isAtomic : atomicSend proto req = true := by simp [atomicSend, atomic]
  have fromWaiting : ∀ at' : Bool × Sending (Pool × τ), at'.1 = true → Waiting A uio at'.2 →
    ∀ s, Begins (poolEnv W) proto req at' s →
      ∀ u, Visits (fillPass (poolEnv W) true req.eor) s u → Answered A u := by
    intro at' isStart waiting s begins u visits
    have building : Building A uio.iov.flatten u := by
      induction visits with
      | here => exact begins.building isAtomic given whole isStart waiting
      | again earlier passed held =>
        exact (fillPass_builds held fun large _ => absurd held.bound (by omega)).1 _ passed
    intro large
    have bound := building.bound
    omega
  intro at' visits
  suffices held : at'.1 = true ∧ Waiting A uio at'.2 ∧ Outside req at' from fromWaiting at' held.1 held.2.1
  induction visits with
  | here => exact entry_waiting given none sound
  | @again t u earlier passed held =>
    obtain ⟨isStart, waiting, outside⟩ := held
    obtain ⟨isStart', waiting'⟩ :=
      (outerPass_carries isAtomic given whole isStart waiting outside.1
        (fromWaiting t isStart waiting)).1 u passed
    exact ⟨isStart', waiting', (outerPass_left outside).1 u passed⟩

/-- The chain that `sosend` hands to `PRU_SEND` has the bytes of the `uio` in buffers of its own,
    when there is no other chain and every cluster that the call asks for is there. -/
theorem sosend_builds {e : Pool × τ} {sent : Sent (Pool × τ)} (atomic : proto.atomic = true)
    (given : req.uio = some uio)
    (whole : uio.resid = uio.iov.flatten.length) (none : req.top = []) (sound : Sound A e.1)
    (answered : AllAnswered W fuel proto req uio e)
    (returned : sosend (poolEnv W) fuel proto req e = some sent) : Carries A uio.iov.flatten sent.handed := by
  unfold sosend at returned
  dsimp only at returned
  split at returned
  · cases returned
    nofun
  split at returned
  · cases returned
  rename_i exit s ended
  have kept : sent.handed = s.handed := by
    unfold sendEnd at returned
    dsimp only at returned
    split at returned
    · cases returned
    split at returned
    · cases returned
    cases returned
    rfl
  rw [kept]
  rw [given, Option.getD_some] at ended
  have isAtomic : atomicSend proto req = true := by simp [atomicSend, atomic]
  refine loop_visits (fun at' => at'.1 = true ∧ Waiting A uio at'.2 ∧ Outside req at')
    (fun left : Exit × Sending (Pool × τ) => Carries A uio.iov.flatten left.2.handed) ?_ ?_ ended
    (entry_waiting given none sound)
  · rintro ⟨restart, s⟩ next visits again ⟨isStart, waiting, outside⟩
    have outside' := (outerPass_left outside).1 next again
    obtain ⟨isStart', waiting'⟩ :=
      (outerPass_carries isAtomic given whole isStart waiting outside.1 (answered _ visits)).1 next again
    exact ⟨isStart', waiting', outside'⟩
  · rintro ⟨restart, s⟩ left visits leave ⟨isStart, waiting, outside⟩
    exact (outerPass_carries isAtomic given whole isStart waiting outside.1 (answered _ visits)).2 left leave

end

def alone (so : SendSide) : Others Kmem.board Unit where
  sock _ := so
  sblock _ e := (0, e)
  sbunlock := id
  sbwait e := (0, e)
  usrreq call := (0, call.state)
  sblock_sound _ _ sound := sound
  sbunlock_sound _ sound := sound
  sbwait_sound _ sound := sound

def gathered : Outgoing := ⟨[List.replicate 150 7, List.replicate 150 8], 300⟩

def large : SendRequest := ⟨none, some gathered, [], [], false, false, false⟩

instance (A : Arena) (s : Sending (Pool × τ)) : Decidable (Answered A s) :=
  inferInstanceAs (Decidable (_ → _ → (_ ∨ _)))

theorem large_built : ∃ sent, sosend (poolEnv (alone udpSocket)) 3 udpProto large (started, ()) = some sent ∧
    Carries Kmem.board gathered.iov.flatten sent.handed := by
  have sound : Sound Kmem.board started := ⟨[], started_reachable.wf⟩
  obtain ⟨sent, returned⟩ : ∃ sent, sosend (poolEnv (alone udpSocket)) 3 udpProto large
      (started, ()) = some sent :=
    Option.isSome_iff_exists.mp (by decide +kernel)
  have answered : AllAnswered (alone udpSocket) 3 udpProto large gathered (started, ()) := by
    intro at' visits s begins u fills
    obtain rfl := visits.only (by decide +kernel)
    obtain ⟨s₁, locked, -, -, rfl⟩ := begins.locked
    obtain ⟨-, rfl⟩ := locked
    -- the first of the three passes asks for a cluster
    have all : ∀ u ∈ stages (fillPass (poolEnv (alone udpSocket)) true large.eor) 3
        { (entry large gathered (started, ())).2 with
          err := 0, locked := true, mpTop := true, space := wsub (sbspace udpSocket.sndsb) 0 },
              Answered Kmem.board u := by
      decide +kernel
    exact all u (fills.stages (by decide +kernel))
  have whole : gathered.resid = gathered.iov.flatten.length := by
    simp only [gathered, List.flatten_cons, List.flatten_nil, List.length_append,
      List.length_replicate, List.length_nil]
  exact ⟨sent, returned, sosend_builds rfl rfl whole rfl sound answered returned⟩

abbrev dry : Pool :=
  { secondExt.2.2 with
    kmem := (Kmem.kmemMalloc Kmem.board secondExt.2.2.kmem (kmemSize - secondExt.2.2.kmem.kmemoffs)).2 }

/-- The first mbuf of a larger datagram gets 2032 bytes, behind its own buffer. -/
theorem dry_overruns : ∃ sent, sosend (poolEnv (alone udpSocket)) 3 udpProto (message 2100)
    (dry, ()) = some sent ∧
    ¬ Carries Kmem.board (List.replicate 2100 7) sent.handed := by
  obtain ⟨sent, returned⟩ : ∃ sent, sosend (poolEnv (alone udpSocket)) 3 udpProto (message 2100)
      (dry, ()) = some sent :=
    Option.isSome_iff_exists.mp (by decide +kernel)
  refine ⟨sent, returned, fun carries => ?_⟩
  have wide : (sosend (poolEnv (alone udpSocket)) 3 udpProto (message 2100) (dry, ())).any
      (fun sent => sent.handed.any fun call => call.top.any fun m =>
        decide (m.room.stop < m.data + m.len)) = true := by decide +kernel
  rw [returned, Option.any_some] at wide
  obtain ⟨call, isCall, more⟩ := List.any_eq_true.mp wide
  obtain ⟨m, isMbuf, beyond⟩ := List.any_eq_true.mp more
  have fit := (carries call isCall).housed.fits m isMbuf
  unfold Mbuf.Fit at fit
  have beyond := of_decide_eq_true beyond
  omega

end Embryo.Sock
