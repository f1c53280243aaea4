import Embryo.Sock.Accounting

namespace Embryo.Sock

open Embryo.Machine Embryo.Uipc
open Embryo.Kmem (Arena)

/-- A record whose header tells its length, and that `sb_mbmax` still has room for. `sbappendaddr`
    looks at the first counter only. -/
structure Fits (sb : Sockbuf) (saLen : Nat) (data control : Chain) : Prop where
  stored : sb.mbcnt + (msize + weight control + weight data) ≤ sb.mbmax
  headed : total data ≤ mpLenOf data
  small : saLen + mpLenOf data + total control < 2^32

/-- The calls of `sbappendaddr` and `soreceive`; a record that is let in by its bytes `Fits`. -/
inductive Metered (A : Arena) : Socket → Socket → Prop where
  | append {so : Socket} {P P' : Pool} {addr : Nat} {data control : Ptr} {code : Bool} {sb : Sockbuf}
      (fits : recordSpace (P.mem addr).toNat data.chain control.chain ≤ sbspace so.rcvsb →
        Fits so.rcvsb (P.mem addr).toNat data.chain control.chain)
      (call : sbappendaddr A P so.rcvsb addr data control = some (code, P', sb)) :
      Metered A so (so.setRcvsb sb)
  | receive {so : Socket} {fuel : Nat} {P : Pool} {req : Request} {r : Received}
      (call : soreceive A fuel P so req = some (.returns r)) : Metered A so r.so

structure Limited (sb : Sockbuf) : Prop where
  counts : sb.Counts sb.mb.all
  octets : total sb.mb.all ≤ sb.hiwat
  stored : weight sb.mb.all ≤ sb.mbmax
  hiwat : sb.hiwat < 2^32
  mbmax : sb.mbmax < 2^32

variable {A : Arena} {sb sb' : Sockbuf} {so so' : Socket}

theorem Limited.counters (limited : Limited sb) : sb.cc ≤ sb.hiwat ∧ sb.mbcnt ≤ sb.mbmax := by
  have cc := limited.counts.cc
  have mbcnt := limited.counts.mbcnt
  have := limited.octets
  have := limited.stored
  have := limited.hiwat
  have := limited.mbmax
  rw [wrap_of_lt (by omega)] at cc mbcnt
  omega

theorem Limited.space (limited : Limited sb) : sbspace sb = min (sb.hiwat - sb.cc) (sb.mbmax - sb.mbcnt) := by
  obtain ⟨cc, mbcnt⟩ := limited.counters
  rw [sbspace, wsub_of_le cc limited.hiwat, wsub_of_le mbcnt limited.mbmax]

theorem foldl_space {c : Chain} {space : Nat} (small : space + total c < 2^32) :
    c.foldl (fun space n => wrap (space + n.len)) space = space + total c := by
  induction c generalizing space with
  | nil => rfl
  | cons m c ih =>
    rw [total_cons] at small
    rw [List.foldl_cons, wrap_of_lt (by omega), ih (by omega), total_cons, Nat.add_assoc]

theorem Limited.queue {saLen : Nat} {m : Mbuf} {data control : Ptr} (limited : Limited sb)
    (fits : Fits sb saLen data.chain control.chain)
    (space : recordSpace saLen data.chain control.chain ≤ sbspace sb) (len : m.len = saLen)
    (plain : m.flags.ext = false) : Limited (sb.queue (.mbuf m (control.linkBehind data) .null)) := by
  have counts := limited.counts
  have grown := counts.queue m (control.linkBehind data)
  have record : (sb.queue (.mbuf m (control.linkBehind data) .null)).mb.all =
      sb.mb.all ++ m :: (control.chain ++ data.chain) := by
    show (sb.mb.queueBehind _).all = _
    rw [Ptr.all_queueBehind, Ptr.all_mbuf, Ptr.chain_linkBehind]
    exact congrArg (sb.mb.all ++ m :: ·) (List.append_nil _)
  obtain ⟨_, hiwat, mbmax⟩ := foldl_sballoc_fixed (Ptr.mbuf m (control.linkBehind data) .null).chain sb
  have high : (sb.queue (.mbuf m (control.linkBehind data) .null)).hiwat = sb.hiwat := hiwat
  have most : (sb.queue (.mbuf m (control.linkBehind data) .null)).mbmax = sb.mbmax := mbmax
  have cc := counts.cc
  have mbcnt := counts.mbcnt
  have octets := limited.octets
  have weighed := limited.stored
  have small := fits.small
  have stored := fits.stored
  have headed := fits.headed
  have smallHigh := limited.hiwat
  have smallMost := limited.mbmax
  rw [limited.space, recordSpace, wrap_of_lt (by omega), foldl_space small] at space
  rw [wrap_of_lt (by omega)] at cc mbcnt
  constructor
  · exact grown
  · rw [record, high, total_append, total_cons, total_append]
    omega
  · have own : storage m = msize := by rw [storage, plain]; rfl
    rw [record, most, weight_append, weight_cons, weight_append, own]
    omega
  · rwa [high]
  · rwa [most]

theorem Limited.drained (limited : Limited sb) (drained : Drained sb sb.mb.all sb' sb'.mb.all) :
    Limited sb' where
  counts := drained.counts limited.counts
  octets := by rw [drained.hiwat]; exact Nat.le_trans drained.total_le limited.octets
  stored := by rw [drained.mbmax]; exact Nat.le_trans drained.weight_le limited.stored
  hiwat := by rw [drained.hiwat]; exact limited.hiwat
  mbmax := by rw [drained.mbmax]; exact limited.mbmax

theorem mbufTake_plain {P P' : Pool} {type : Nat} {pkt : Bool} {m : Mbuf}
    (got : mbufTake A P type pkt = (some m, P')) : m.flags.ext = false := by
  have once : ∀ {P P'}, mget A P type pkt = (some m, P') → m.flags.ext = false := by
    intro P P' got
    unfold mget at got
    dsimp only at got
    split at got
    · cases got
    · cases got
      rfl
  unfold mbufTake at got
  split at got
  · cases got
  · split at got
    · rename_i first
      cases got
      exact once first
    · exact once got

theorem Metered.limited (metered : Metered A so so') (limited : Limited so.rcvsb) : Limited so'.rcvsb := by
  cases metered with
  | append fits call =>
    rcases sbappendaddr_cases call with ⟨_, rfl⟩ | ⟨m, P₁, _, _, space, _, got, _, rfl⟩
    · exact limited
    · have plain : m.flags.ext = false := mbufTake_plain got
      exact limited.queue (fits space) space rfl plain
  | receive call => exact limited.drained (Drained.soreceive call)

theorem soreserve_limited {snd rcv snd' rcv' : Sockbuf} {sndsz rcvsz : Nat} (empty : rcv.mb = .null)
    (cc : rcv.cc = 0) (mbcnt : rcv.mbcnt = 0)
    (reserved : soreserve snd rcv sndsz rcvsz = (true, snd', rcv')) : Limited rcv' := by
  unfold soreserve at reserved
  split at reserved
  · cases reserved
  · split at reserved
    · cases reserved
    · rename_i served
      dsimp only at reserved
      cases reserved
      unfold sbreserve at served
      split at served
      · cases served
      · rename_i size
        simp only [sbMax, mclBytes, mclShift, msize] at size
        cases served
        constructor
        · show Sockbuf.Counts _ rcv.mb.all
          rw [empty]
          exact ⟨cc, mbcnt⟩
        · show total rcv.mb.all ≤ _
          rw [empty]
          exact Nat.zero_le _
        · show weight rcv.mb.all ≤ _
          rw [empty]
          exact Nat.zero_le _
        · show rcvsz < 2^32
          omega
        · show min _ sbMax < 2^32
          simp only [sbMax]
          omega

/-- The limits hold in every run whose records all fit the storage that is left. -/
theorem receive_buffer_limited {snd rcv snd' : Sockbuf} {sndsz rcvsz : Nat} (empty : rcv.mb = .null)
    (cc : rcv.cc = 0) (mbcnt : rcv.mbcnt = 0)
    (reserved : soreserve snd rcv sndsz rcvsz = (true, snd', so.rcvsb))
    (run : Relation.ReflTransGen (Metered A) so so') :
    so'.rcvsb.cc ≤ so'.rcvsb.hiwat ∧ so'.rcvsb.mbcnt ≤ so'.rcvsb.mbmax ∧
      sbspace so'.rcvsb = min (so'.rcvsb.hiwat - so'.rcvsb.cc) (so'.rcvsb.mbmax - so'.rcvsb.mbcnt) ∧
      total so'.rcvsb.mb.all ≤ so'.rcvsb.hiwat := by
  have limited : Limited so'.rcvsb := by
    induction run with
    | refl => exact soreserve_limited empty cc mbcnt reserved
    | tail _ metered ih => exact metered.limited ih
  exact ⟨limited.counters.1, limited.counters.2, limited.space, limited.octets⟩

theorem peeked_buffer_limited :
    peeked.so.rcvsb.cc ≤ peeked.so.rcvsb.hiwat ∧ peeked.so.rcvsb.mbcnt ≤ peeked.so.rcvsb.mbmax ∧
      sbspace peeked.so.rcvsb =
        min (peeked.so.rcvsb.hiwat - peeked.so.rcvsb.cc) (peeked.so.rcvsb.mbmax - peeked.so.rcvsb.mbcnt) ∧
      total peeked.so.rcvsb.mb.all ≤ peeked.so.rcvsb.hiwat := by
  have fits : Fits attached.rcvsb (named.mem 0x1000).toNat packet.chain Ptr.null.chain :=
    ⟨by decide +kernel, by decide +kernel, by decide +kernel⟩
  have first : Metered Kmem.board attached waiting := .append (fun _ => fits) queued_eq
  have second : Metered Kmem.board waiting peeked.so := .receive (returned_eq (by decide +kernel))
  exact @receive_buffer_limited _ attached _ unused unused (soreserve unused unused 9216 41600).2.1 9216 41600
    rfl rfl rfl rfl (.tail (.tail .refl first) second)

def spread : Nat → Ptr
  | 0 => .null
  | n + 1 => .mbuf
      { addr := 0x8b020000 + msize * n
        data := 0x8b100000 + mclBytes * n
        len := 1
        flags := { noFlags with pkthdr := n == 7, ext := true }
        type := 2
        pkthdr := ⟨8, 0⟩
        ext := ⟨0x8b100000 + mclBytes * n, mclBytes, 0, 0⟩ } (spread n) .null

abbrev rawSocket : Socket := ⟨false, false, false, false, 0, 0, (soreserve unused unused 8192 8192).2.2⟩
abbrev overfilled : Bool × Pool × Sockbuf :=
  (sbappendaddr Kmem.board named rawSocket.rcvsb 0x1000 (spread 8) .null).getD (false, named, unused)

/-- One packet takes a raw socket past `sb_mbmax`, and the buffer looks as if it had storage left. -/
theorem receive_buffer_overfilled :
    soreserve unused unused 8192 8192 = (true, (soreserve unused unused 8192 8192).2.1, rawSocket.rcvsb) ∧
      sbappendaddr Kmem.board named rawSocket.rcvsb 0x1000 (spread 8) .null = some (true, overfilled.2) ∧
      overfilled.2.2.mbmax < overfilled.2.2.mbcnt ∧
      sbspace overfilled.2.2 = overfilled.2.2.hiwat - overfilled.2.2.cc := by
  have ended : (sbappendaddr Kmem.board named rawSocket.rcvsb 0x1000 (spread 8) .null).isSome = true := by
    decide +kernel
  have code : overfilled.1 = true := by decide +kernel
  refine ⟨rfl, ?_, by decide +kernel, by decide +kernel⟩
  exact (some_getD (d := (false, named, unused)) ended).trans (congrArg some (Prod.ext code rfl))

end Embryo.Sock
