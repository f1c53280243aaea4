import Embryo.Inet.Output
import Embryo.Net.Ifaddr

namespace Embryo.Inet

open Embryo.Machine Embryo.Net
open Embryo.Radix (Caddr)

structure RtFlags where
  gateway : Bool
  host : Bool
deriving DecidableEq, Repr

structure Found where
  gateway : Bool
  family : UInt8
  ifa : Option Net.Ifaddr

def routeIfaddr (rtAlloc : Caddr → Option Found) (dst gateway : Caddr) : Option Net.Ifaddr :=
  match rtAlloc gateway with
  | none => none
  | some rt => if rt.gateway ∧ rt.family = dst 1 then none else rt.ifa

def inFamily (N : Interfaces) (dst : Caddr) (ifa : Net.Ifaddr) : Net.Ifaddr :=
  if ifa.addr 1 ≠ dst 1 then
    match ifaofIfpforaddr N dst ifa.ifp with
    | none => ifa
    | some ifa => ifa
  else ifa

/-- `rt_ifwithroute`. Its calls of `ifa_ifwithdstaddr` for a gateway and of `ifa_ifwithnet` have no effect. -/
def rtIfwithroute (N : Interfaces) (rtAlloc : Caddr → Option Found) (dst gateway : Caddr)
    (flags : RtFlags) : Option Net.Ifaddr :=
  let ifa :=
    if ¬ flags.gateway then
      match if flags.host then ifaIfwithdstaddr N dst else none with
      | some ifa => some ifa
      | none => ifaIfwithaddr N gateway
    else none
  match ifa with
  | some ifa => some (inFamily N dst ifa)
  | none => (routeIfaddr rtAlloc dst gateway).map (inFamily N dst)

def sockaddrIn (a : Nat) (addr : UInt32) : Caddr := sockaddrAt a (16 :: Net.afInet :: 0 :: 0 :: bytes32 addr)

def ifatoia (ifa : Net.Ifaddr) : Net.InIfaddr := ⟨ifa.ifp, get32 ifa.addr.bytes 4⟩

/-- The searches of `if.c` for the `sockaddr_in` at `a`. -/
def searching (env : Env) (N : Interfaces) (a : Nat) : Env :=
  { env with
    ifaIfwithdstaddr := fun addr => (ifaIfwithdstaddr N (sockaddrIn a addr)).map ifatoia
    ifaIfwithnet := fun addr => (ifaIfwithnet N (sockaddrIn a addr)).map ifatoia
    ifaIfwithaddr := fun addr => (ifaIfwithaddr N (sockaddrIn a addr)).map ifatoia }

def Peer (N : Interfaces) (addr : Caddr) (ifa : Net.Ifaddr) : Prop :=
  ∃ ifp ∈ N.ifnetlist, (N.ifnet ifp).point2point ∧ ifa ∈ (N.ifnet ifp).addrlist ∧ ifa.addr 1 = addr 1 ∧
    ∃ dst, ifa.dstaddr = some dst ∧ equal addr dst

/-- `addr` is on the network of the address; a `sockaddr_dl` has the number of the interface. -/
def Connected (N : Interfaces) (addr : Caddr) (ifa : Net.Ifaddr) : Prop :=
  (∃ mask, Configured N addr ifa mask ∧ Contains ifa.addr mask addr) ∨
    (addr 1).toNat = afLink ∧ N.ifnetAddrs[sdlIndex addr]? = some ifa

def Direct (N : Interfaces) (addr : Caddr) (ifa : Net.Ifaddr) : Prop :=
  Peer N addr ifa ∨ (∀ other, ¬ Peer N addr other) ∧ Connected N addr ifa

def Chosen (N : Interfaces) (addr : Caddr) (last result : Option Net.Ifaddr) : Prop :=
  (∃ ifa, result = some ifa ∧ Direct N addr ifa) ∨ (∀ ifa, ¬ Direct N addr ifa) ∧ result = last

variable {N : Interfaces} {addr dst gateway : Caddr} {rtAlloc : Caddr → Option Found} {flags : RtFlags}

theorem ifaIfwithdstaddr_none_iff : ifaIfwithdstaddr N addr = none ↔ ∀ ifa, ¬ Peer N addr ifa := by
  unfold ifaIfwithdstaddr
  rw [List.findSome?_eq_none_iff]
  constructor
  · rintro missing ifa ⟨ifp, listed, p2p, member, family, dst, set, peer⟩
    have here := missing ifp listed
    rw [if_pos p2p, List.find?_eq_none] at here
    exact here ifa member (decide_eq_true ⟨family, (Option.any_eq_true _ _).mpr ⟨dst, set, peer⟩⟩)
  · intro outside ifp listed
    split
    · next p2p =>
      rw [List.find?_eq_none]
      intro ifa member matched
      rw [decide_eq_true_eq, Option.any_eq_true] at matched
      obtain ⟨family, dst, set, peer⟩ := matched
      exact outside ifa ⟨ifp, listed, p2p, member, family, dst, set, peer⟩
    · rfl

theorem connected_none_iff (inet : addr 1 = Net.afInet) :
    ifaIfwithnet N addr = none ↔ ∀ ifa, ¬ Connected N addr ifa := by
  rw [ifaIfwithnet_none_iff inet]
  constructor
  · rintro outside ifa (⟨mask, configured, contains⟩ | ⟨link, _⟩)
    · exact outside ifa mask configured contains
    · rw [inet] at link
      cases link
  · exact fun none ifa mask configured contains => none ifa (.inl ⟨mask, configured, contains⟩)

theorem rtIfwithroute_gateway (isGateway : flags.gateway = true) :
    rtIfwithroute N rtAlloc dst gateway flags = (routeIfaddr rtAlloc dst gateway).map (inFamily N dst) := by
  unfold rtIfwithroute
  rw [isGateway]
  rfl

theorem gateway_right_iff (isGateway : flags.gateway = true) :
    (∃ chosen, Chosen N gateway (routeIfaddr rtAlloc dst gateway) chosen ∧
        rtIfwithroute N rtAlloc dst gateway flags = chosen.map (inFamily N dst)) ↔
      (∀ ifa, ¬ Direct N gateway ifa) ∨
        ∃ ifa, Direct N gateway ifa ∧ (routeIfaddr rtAlloc dst gateway).map (inFamily N dst) =
          some (inFamily N dst ifa) := by
  rw [rtIfwithroute_gateway isGateway]
  constructor
  · rintro ⟨chosen, ⟨ifa, rfl, direct⟩ | ⟨none, _⟩, same⟩
    · exact .inr ⟨ifa, direct, same⟩
    · exact .inl none
  · rintro (none | ⟨ifa, direct, same⟩)
    · exact ⟨_, .inr ⟨none, rfl⟩, rfl⟩
    · exact ⟨some ifa, .inl ⟨ifa, rfl, direct⟩, same⟩

theorem cachedRoute_dst (S : Stack) (ro : Option Route) (ip : UInt32) : (cachedRoute S ro ip).dst = ip := by
  unfold cachedRoute
  split
  · rfl
  · split
    · rfl
    · split
      · rfl
      · next kept => exact not_not.mp (not_or.mp kept).2

def leaving (ifa : Net.Ifaddr) : Nat × UInt32 := ((ifatoia ifa).ifp, (ifatoia ifa).addr)

theorem outgoing_routetoif (env : Env) (S : Stack) (ro : Option Route) {ipFlags : IpFlags} (a : Nat)
    (ip : UInt32) (toIf : ipFlags.routetoif = true) :
    (outgoing (searching env N a) S ro ipFlags ip).1 =
      if ifaIfwithdstaddr N (sockaddrIn a ip) = none ∨ ifaIfwithnet N (sockaddrIn a ip) = none then none
      else (ifaIfwithaddr N (sockaddrIn a ip)).map leaving := by
  unfold outgoing
  rw [if_pos toIf, cachedRoute_dst]
  simp only [searching, Option.isNone_map, Option.isNone_iff_eq_none]
  split
  · rfl
  · cases ifaIfwithaddr N (sockaddrIn a ip) <;> rfl

theorem routetoif_right_iff (env : Env) (S : Stack) (ro : Option Route) {ipFlags : IpFlags}
    (a : Nat) (ip : UInt32) (toIf : ipFlags.routetoif = true) :
    (∃ chosen, Chosen N (sockaddrIn a ip) (ifaIfwithaddr N (sockaddrIn a ip)) chosen ∧
        (outgoing (searching env N a) S ro ipFlags ip).1 = chosen.map leaving) ↔
      (∀ ifa, ¬ Direct N (sockaddrIn a ip) ifa) ∧ ifaIfwithaddr N (sockaddrIn a ip) = none ∨
        (∃ net, Connected N (sockaddrIn a ip) net) ∧
          ∃ peer, Peer N (sockaddrIn a ip) peer ∧
            (ifaIfwithaddr N (sockaddrIn a ip)).map leaving = some (leaving peer) := by
  rw [outgoing_routetoif env S ro a ip toIf]
  have inet : (sockaddrIn a ip) 1 = Net.afInet := rfl
  generalize sockaddrIn a ip = addr at inet ⊢
  by_cases found : ifaIfwithdstaddr N addr = none ∨ ifaIfwithnet N addr = none
  · rw [if_pos found]
    rw [ifaIfwithdstaddr_none_iff, connected_none_iff inet] at found
    constructor
    · rintro ⟨chosen, ⟨ifa, rfl, direct⟩ | ⟨none, rfl⟩, same⟩
      · cases same
      · exact .inl ⟨none, Option.map_eq_none_iff.mp same.symm⟩
    · rintro (⟨none, missing⟩ | ⟨⟨net, connected⟩, peer, other, _⟩)
      · exact ⟨_, .inr ⟨none, rfl⟩, by rw [missing]; rfl⟩
      · rcases found with noPeer | noNet
        · exact absurd other (noPeer peer)
        · exact absurd connected (noNet net)
  · rw [if_neg found]
    rw [ifaIfwithdstaddr_none_iff, connected_none_iff inet, not_or, not_forall_not, not_forall_not] at found
    obtain ⟨⟨peer, other⟩, connected⟩ := found
    constructor
    · rintro ⟨chosen, ⟨ifa, rfl, direct | ⟨noPeer, _⟩⟩ | ⟨none, _⟩, same⟩
      · exact .inr ⟨connected, ifa, direct, same⟩
      · exact absurd other (noPeer peer)
      · exact absurd (.inl other) (none peer)
    · rintro (⟨none, _⟩ | ⟨_, first, isPeer, same⟩)
      · exact absurd (.inl other) (none peer)
      · exact ⟨some first, .inl ⟨first, rfl, .inl isPeer⟩, same⟩

/-- When `rt_ifwithroute` for a gateway, and `ip_output` with `IP_ROUTETOIF`, choose the address
    they should. -/
theorem sources_right_iff (env : Env) (S : Stack) (ro : Option Route) {ipFlags : IpFlags} (a : Nat)
    (ip : UInt32) (isGateway : flags.gateway = true) (toIf : ipFlags.routetoif = true) :
    ((∃ chosen, Chosen N gateway (routeIfaddr rtAlloc dst gateway) chosen ∧
          rtIfwithroute N rtAlloc dst gateway flags = chosen.map (inFamily N dst)) ↔
        (∀ ifa, ¬ Direct N gateway ifa) ∨
          ∃ ifa, Direct N gateway ifa ∧
            (routeIfaddr rtAlloc dst gateway).map (inFamily N dst) = some (inFamily N dst ifa)) ∧
      ((∃ chosen, Chosen N (sockaddrIn a ip) (ifaIfwithaddr N (sockaddrIn a ip)) chosen ∧
          (outgoing (searching env N a) S ro ipFlags ip).1 = chosen.map leaving) ↔
        (∀ ifa, ¬ Direct N (sockaddrIn a ip) ifa) ∧ ifaIfwithaddr N (sockaddrIn a ip) = none ∨
          (∃ net, Connected N (sockaddrIn a ip) net) ∧
            ∃ peer, Peer N (sockaddrIn a ip) peer ∧
              (ifaIfwithaddr N (sockaddrIn a ip)).map leaving = some (leaving peer)) :=
  ⟨gateway_right_iff isGateway, routetoif_right_iff env S ro a ip toIf⟩

def lineEnd : Net.Ifaddr :=
  ⟨10, sockaddrIn 100 0x0100000a, some (sockaddrIn 120 0x0200000a),
    some (sockaddrAt 140 [5, 0, 0, 0, 255]), 1⟩

def line : Interfaces := ⟨[1], fun _ => ⟨false, true, [lineEnd]⟩, []⟩

theorem lineEnd_peer : Peer line (sockaddrIn 200 0x0200000a) lineEnd :=
  ⟨1, List.mem_cons_self, rfl, List.mem_cons_self, rfl, sockaddrIn 120 0x0200000a, rfl, by decide⟩

abbrev toInterface : IpFlags := ⟨false, false, true⟩

def ownEnd : Net.Ifaddr :=
  ⟨20, sockaddrIn 300 0x0900000a, some (sockaddrIn 320 0x0900000a),
    some (sockaddrAt 340 [5, 0, 0, 0, 255]), 1⟩

def lines : Interfaces := ⟨[1], fun _ => ⟨false, true, [lineEnd, ownEnd]⟩, []⟩

theorem line_sources :
    (∃ chosen, Chosen lines (sockaddrIn 200 0x0200000a) (routeIfaddr (fun _ => some ⟨false, 2, some lineEnd⟩)
          (sockaddrIn 220 0x0400000c) (sockaddrIn 200 0x0200000a)) chosen ∧
        rtIfwithroute lines (fun _ => some ⟨false, 2, some lineEnd⟩) (sockaddrIn 220 0x0400000c)
        (sockaddrIn 200 0x0200000a)
          ⟨true, false⟩ = chosen.map (inFamily lines (sockaddrIn 220 0x0400000c))) ∧
      ∃ chosen, Chosen lines (sockaddrIn 400 0x0900000a)
      (ifaIfwithaddr lines (sockaddrIn 400 0x0900000a)) chosen ∧
        (outgoing (searching toHost lines 400) (lan littlePool) none toInterface 0x0900000a).1 =
          chosen.map leaving := by
  have peer : Peer lines (sockaddrIn 200 0x0200000a) lineEnd :=
    ⟨1, List.mem_cons_self, rfl, List.mem_cons_self, rfl, sockaddrIn 120 0x0200000a, rfl, by decide⟩
  have own : Peer lines (sockaddrIn 400 0x0900000a) ownEnd :=
    ⟨1, List.mem_cons_self, rfl, List.mem_cons_of_mem _ List.mem_cons_self, rfl,
      sockaddrIn 320 0x0900000a, rfl, by decide⟩
  have connected : ∃ net, Connected lines (sockaddrIn 400 0x0900000a) net := by
    by_contra none
    have missing := (@connected_none_iff lines (sockaddrIn 400 0x0900000a) rfl).mpr (not_exists.mp none)
    exact absurd missing (by decide)
  have right := @sources_right_iff lines (sockaddrIn 220 0x0400000c) (sockaddrIn 200 0x0200000a)
    (fun _ => some ⟨false, 2, some lineEnd⟩) ⟨true, false⟩ toHost (lan littlePool)
      none toInterface 400 0x0900000a rfl rfl
  exact ⟨right.1.mpr (.inr ⟨lineEnd, .inl peer, rfl⟩), right.2.mpr (.inr ⟨connected, ownEnd, own, by decide⟩)⟩

/-- The gateway, and the destination, are at the other end of the line, and the route table is empty. -/
theorem line_overlooked :
    (¬ ∃ chosen, Chosen line (sockaddrIn 200 0x0200000a)
          (routeIfaddr (fun _ => none) (sockaddrIn 220 0x0400000c) (sockaddrIn 200 0x0200000a)) chosen ∧
        rtIfwithroute line (fun _ => none) (sockaddrIn 220 0x0400000c) (sockaddrIn 200 0x0200000a)
        ⟨true, false⟩ =
          chosen.map (inFamily line (sockaddrIn 220 0x0400000c))) ∧
      ¬ ∃ chosen, Chosen line (sockaddrIn 200 0x0200000a)
      (ifaIfwithaddr line (sockaddrIn 200 0x0200000a)) chosen ∧
        (outgoing (searching toHost line 200) (lan littlePool) none toInterface 0x0200000a).1 =
          chosen.map leaving := by
  have missing : ∀ chosen, Chosen line (sockaddrIn 200 0x0200000a) none chosen → chosen ≠ none := by
    rintro chosen (⟨ifa, rfl, _⟩ | ⟨none, _⟩)
    · exact Option.some_ne_none ifa
    · exact absurd (.inl lineEnd_peer) (none lineEnd)
  constructor
  · rintro ⟨chosen, right, same⟩
    exact missing chosen right (Option.map_eq_none_iff.mp same.symm)
  · rintro ⟨chosen, right, same⟩
    have own : ifaIfwithaddr line (sockaddrIn 200 0x0200000a) = none := by decide
    rw [own] at right
    rw [outgoing_routetoif toHost (lan littlePool) none 200 0x0200000a rfl, own, Option.map_none,
      ite_self] at same
    exact missing chosen right (Option.map_eq_none_iff.mp same.symm)

end Embryo.Inet
