import Embryo.Machine.Foremost
import Embryo.Net.Ifaddr

namespace Embryo.Net

open Embryo.Machine
open Embryo.Radix (Caddr)

/-- An address of the family of `addr` whose network has `addr` in it, or that is `addr` or has it
    as its peer where there is no netmask. -/
def Suits (addr : Caddr) (ifa : Ifaddr) : Prop :=
  ifa.addr 1 = addr 1 ∧
    match ifa.netmask with
    | none => equal addr ifa.addr ∨ ∃ dst, ifa.dstaddr = some dst ∧ equal addr dst
    | some mask => Contains ifa.addr mask addr

/-- Where the loop of `ifaof_ifpforaddr` ends at its limit without a match or elsewhere with one:
    the last byte of the netmask is the only one with a difference under it, or the netmask ends
    before `sa_data`. -/
def Misjudged (addr : Caddr) (ifa : Ifaddr) : Prop :=
  ifa.addr 1 = addr 1 ∧ ∃ mask, ifa.netmask = some mask ∧
    (Caddr.len mask < 2 ∨ 2 < Caddr.len mask ∧
      (addr (Caddr.len mask - 1) ^^^ ifa.addr (Caddr.len mask - 1)) &&& mask (Caddr.len mask - 1) ≠ 0 ∧
        ∀ i, 2 ≤ i → i < Caddr.len mask - 1 → (addr i ^^^ ifa.addr i) &&& mask i = 0)

/-- The test of the loop body of `ifaof_ifpforaddr`. -/
def chosen (addr : Caddr) (ifa : Ifaddr) : Bool :=
  ifa.addr 1 == addr 1 &&
    match ifa.netmask with
    | none => equal addr ifa.addr || ifa.dstaddr.any (equal addr)
    | some mask => reachesLimit addr ifa.addr mask

variable {N : Interfaces} {addr own mask : Caddr} {ifp : Nat} {ifa : Ifaddr}

theorem reachesLimit_iff : reachesLimit addr own mask = true ↔
    2 ≤ Caddr.len mask ∧ ∀ i, 2 ≤ i → i < Caddr.len mask - 1 → (addr i ^^^ own i) &&& mask i = 0 := by
  unfold reachesLimit
  rw [decide_eq_true_eq, all_range']
  refine and_congr_right fun two => forall_congr' fun i => imp_congr_right fun low => ?_
  exact ⟨fun same high => same (by omega), fun same high => same (by omega)⟩

theorem reachesLimit_contains : (reachesLimit addr own mask = true ↔ Contains own mask addr) ↔
    ¬ (Caddr.len mask < 2 ∨ 2 < Caddr.len mask ∧
      (addr (Caddr.len mask - 1) ^^^ own (Caddr.len mask - 1)) &&& mask (Caddr.len mask - 1) ≠ 0 ∧
        ∀ i, 2 ≤ i → i < Caddr.len mask - 1 → (addr i ^^^ own i) &&& mask i = 0) := by
  rw [reachesLimit_iff, ← sameNetwork_iff, sameNetwork, all_range']
  by_cases short : Caddr.len mask < 2
  · refine iff_of_false (fun same => ?_) (fun right => right (.inl short))
    have inside := (same.mpr fun i low high => by omega).1
    omega
  by_cases two : Caddr.len mask = 2
  · refine iff_of_true (iff_of_true ⟨by omega, ?_⟩ ?_) ?_
    · intro i low high
      omega
    · intro i low high
      omega
    · rintro (less | ⟨more, _⟩) <;> omega
  · have last : 2 ≤ Caddr.len mask - 1 ∧ Caddr.len mask - 1 < 2 + (Caddr.len mask - 2) := by omega
    constructor
    · rintro same (less | ⟨_, differs, before⟩)
      · omega
      · exact differs (same.mp ⟨by omega, before⟩ _ last.1 last.2)
    · intro right
      constructor
      · rintro ⟨_, before⟩ i low high
        by_cases here : i = Caddr.len mask - 1
        · subst here
          by_contra differs
          exact right (.inr ⟨by omega, differs, before⟩)
        · exact before i low (by omega)
      · exact fun same => ⟨by omega, fun i low high => same i low (by omega)⟩

theorem chosen_iff : (chosen addr ifa = true ↔ Suits addr ifa) ↔ ¬ Misjudged addr ifa := by
  unfold chosen Suits Misjudged
  rw [Bool.and_eq_true, beq_iff_eq]
  by_cases family : ifa.addr 1 = addr 1
  · simp only [family, true_and]
    cases ifa.netmask with
    | none =>
      refine iff_of_true ?_ nofun
      rw [Bool.or_eq_true, Option.any_eq_true]
    | some mask =>
      simp only [Option.some.injEq, exists_eq_left']
      exact reachesLimit_contains
  · simp only [family, false_and, not_false_eq_true]

theorem ifaofIfpforaddr_eq (known : (addr 1).toNat ≤ afMax) :
    ifaofIfpforaddr N addr ifp = (N.ifnet ifp).addrlist.find? (chosen addr) := by
  unfold ifaofIfpforaddr
  rw [if_neg (Nat.not_lt.mpr known)]
  rfl

/-- `ifaof_ifpforaddr` finds the first address that suits, exactly when no netmask up to there is
    misjudged. -/
theorem ifaof_right_iff (known : (addr 1).toNat ≤ afMax) :
    Searched (Suits addr) (N.ifnet ifp).addrlist (ifaofIfpforaddr N addr ifp) ↔
      ∀ before ifa after, (N.ifnet ifp).addrlist = before ++ ifa :: after →
        (∀ other ∈ before, ¬ Suits addr other) →
        ¬ Misjudged addr ifa := by
  rw [ifaofIfpforaddr_eq known, find_searched_iff]
  refine forall_congr' fun before => forall_congr' fun ifa => forall_congr' fun after => ?_
  exact imp_congr_right fun _ => imp_congr_right fun _ => chosen_iff

/-- An interface with the network 10.0.0/24 finds it for 10.0.0.9, where the netmask has been
    trimmed to its third byte. -/
theorem ifaof_right_inside :
    Searched (Suits (sockaddrAt 500 [16, 2, 0, 0, 10, 0, 0, 9])) (twoNets.ifnet 2).addrlist
      (ifaofIfpforaddr twoNets (sockaddrAt 500 [16, 2, 0, 0, 10, 0, 0, 9]) 2) := by
  rw [ifaof_right_iff (by decide)]
  intro before ifa after parts _
  have member : ifa ∈ (twoNets.ifnet 2).addrlist := parts ▸ List.mem_append_right _ List.mem_cons_self
  obtain rfl := List.mem_singleton.mp member
  rintro ⟨_, mask, masked, short | ⟨_, differs, _⟩⟩
  · cases masked
    exact absurd short (by decide)
  · cases masked
    exact differs (by decide)

/-- It finds the same network for 10.0.1.9, which `ifa_ifwithnet` does not take to be in it. -/
theorem outside_address_found :
    (ifaofIfpforaddr twoNets (sockaddrAt 500 [16, 2, 0, 0, 10, 0, 1, 9]) 2).map Ifaddr.ptr = some 20 ∧
      ¬ Searched (Suits (sockaddrAt 500 [16, 2, 0, 0, 10, 0, 1, 9])) (twoNets.ifnet 2).addrlist
        (ifaofIfpforaddr twoNets (sockaddrAt 500 [16, 2, 0, 0, 10, 0, 1, 9]) 2) := by
  refine ⟨by decide, fun searched => ?_⟩
  obtain ⟨before, after, _, ⟨_, contains⟩, _⟩ := searched.2 _ rfl
  have differs := contains 6 (by decide)
  exact absurd differs (by decide)

end Embryo.Net
