import Embryo.Inet.PcbPlace
import Embryo.Machine.Earliest

namespace Embryo.Inet

open Embryo.Machine

structure Tuple where
  faddr : UInt32
  fport : UInt16
  laddr : UInt32
  lport : UInt16
deriving DecidableEq

def InPcb.tuple (inp : InPcb) : Tuple := ⟨inp.faddr, inp.fport, inp.laddr, inp.lport⟩

def SideAgrees (own asked : UInt32) : Prop := own = asked ∨ own = inaddrAny ∨ asked = inaddrAny

def wildSide (own asked : UInt32) : Nat := if own = inaddrAny ↔ asked = inaddrAny then 0 else 1

def InPcb.wildSides (inp : InPcb) (q : Tuple) : Nat := wildSide inp.laddr q.laddr + wildSide inp.faddr q.faddr

/-- A pcb a query may mean. Without `INPCBLOOKUP_WILDCARD` neither side may be a wildcard. -/
structure InPcb.Compatible (inp : InPcb) (wildcard : Bool) (q : Tuple) : Prop where
  lport : inp.lport = q.lport
  laddr : SideAgrees inp.laddr q.laddr
  faddr : SideAgrees inp.faddr q.faddr
  fport : inp.faddr ≠ inaddrAny → q.faddr ≠ inaddrAny → inp.fport = q.fport
  exact : wildcard = true ∨ inp.wildSides q = 0

instance (own asked : UInt32) : Decidable (SideAgrees own asked) := inferInstanceAs (Decidable (_ ∨ _))

theorem InPcb.compatible_iff (inp : InPcb) (wildcard : Bool) (q : Tuple) :
    inp.Compatible wildcard q ↔ inp.lport = q.lport ∧ SideAgrees inp.laddr q.laddr ∧
      SideAgrees inp.faddr q.faddr ∧
      (inp.faddr ≠ inaddrAny → q.faddr ≠ inaddrAny → inp.fport = q.fport) ∧
        (wildcard = true ∨ inp.wildSides q = 0) :=
  ⟨fun c => ⟨c.lport, c.laddr, c.faddr, c.fport, c.exact⟩, fun ⟨a, b, c, d, e⟩ => ⟨a, b, c, d, e⟩⟩

instance (inp : InPcb) (wildcard : Bool) (q : Tuple) : Decidable (inp.Compatible wildcard q) :=
  decidable_of_iff' _ (inp.compatible_iff wildcard q)

def InPcb.rank (wildcard : Bool) (q : Tuple) (inp : InPcb) : Option Nat :=
  if inp.Compatible wildcard q then some (inp.wildSides q) else none

theorem wildMatch_eq (inp : InPcb) (q : Tuple) : wildMatch inp q.faddr q.fport q.laddr =
    if SideAgrees inp.laddr q.laddr ∧ SideAgrees inp.faddr q.faddr ∧
      (inp.faddr ≠ inaddrAny → q.faddr ≠ inaddrAny → inp.fport = q.fport) then
        some (inp.wildSides q) else none := by
  unfold wildMatch InPcb.wildSides wildSide SideAgrees
  by_cases near : inp.laddr = inaddrAny <;> by_cases near' : q.laddr = inaddrAny <;>
    by_cases far : inp.faddr = inaddrAny <;> by_cases far' : q.faddr = inaddrAny <;>
    simp [near, near', far, far'] <;> grind

theorem wildSides_le (inp : InPcb) (q : Tuple) : inp.wildSides q < 3 := by
  unfold InPcb.wildSides wildSide
  split <;> split <;> decide

theorem rank_eq (inp : InPcb) (wildcard : Bool) (q : Tuple) : inp.rank wildcard q =
    (if inp.lport ≠ q.lport then none else wildMatch inp q.faddr q.fport q.laddr).bind fun wild =>
      if wild = 0 ∨ wildcard = true then some wild else none := by
  rw [wildMatch_eq, InPcb.rank]
  simp only [InPcb.compatible_iff]
  by_cases port : inp.lport = q.lport
  · rw [if_neg (not_not.mpr port)]
    by_cases match' : SideAgrees inp.laddr q.laddr ∧ SideAgrees inp.faddr q.faddr ∧
        (inp.faddr ≠ inaddrAny → q.faddr ≠ inaddrAny → inp.fport = q.fport)
    · rw [if_pos match', Option.bind_some]
      obtain ⟨near, far, ports⟩ := match'
      apply if_congr _ rfl rfl
      exact ⟨fun all => all.2.2.2.2.symm, fun wild => ⟨port, near, far, ports, wild.symm⟩⟩
    · rw [if_neg match', Option.bind_none, if_neg]
      exact fun all => match' ⟨all.2.1, all.2.2.1, all.2.2.2.1⟩
  · rw [if_pos port, Option.bind_none, if_neg fun all => port all.1]

theorem lookupLoop_eq (T : Inpcbtable) (wildcard : Bool) (q : Tuple) (queue : List Nat) (minWild : Nat)
    (best : Option Nat) : lookupLoop T wildcard q.faddr q.fport q.laddr q.lport queue minWild best =
      bestFrom (· == 0) (fun p => (T.pcb p).rank wildcard q) queue minWild best := by
  induction queue generalizing minWild best with
  | nil => rfl
  | cons cur rest ih =>
    rw [lookupLoop, bestFrom, rank_eq]
    generalize (if (T.pcb cur).lport ≠ q.lport then none
      else wildMatch (T.pcb cur) q.faddr q.fport q.laddr) = wild
    cases wild with
    | none => exact ih minWild best
    | some wild =>
      rw [Option.bind_some]
      by_cases exact' : wild = 0 ∨ wildcard = true
      · simp only [exact', true_and, if_true, beq_iff_eq]
        split
        · split
          · rfl
          · exact ih wild _
        · exact ih minWild best
      · simp only [exact', false_and, if_false]
        exact ih minWild best

theorem lookup_earliest {T : Inpcbtable} {wildcard : Bool} {q : Tuple} {p : Nat}
    (first : Earliest (fun p => (T.pcb p).rank wildcard q) T.pcbqueue p) :
    (T.pcb p).Compatible wildcard q ∧ inpcbLookup T wildcard q.faddr q.fport q.laddr q.lport = some p := by
  have ranked : ∃ k, (T.pcb p).rank wildcard q = some k := by
    obtain ⟨k, _, _, _, own, _⟩ := first
    exact ⟨k, own⟩
  obtain ⟨k, own⟩ := ranked
  have meant : (T.pcb p).Compatible wildcard q := by
    by_contra other
    rw [InPcb.rank, if_neg other] at own
    cases own
  have small : k < 3 := by
    rw [InPcb.rank, if_pos meant] at own
    cases own
    exact wildSides_le _ _
  have final : ∀ k : Nat, (k == 0) = true → ∀ j, k ≤ j := by
    intro k zero j
    rw [beq_iff_eq.mp zero]
    exact Nat.zero_le j
  rw [inpcbLookup, lookupLoop_eq, bestFrom_earliest final first own small none]
  exact ⟨meant, rfl⟩

/-- The answer of `inpcb_lookup` is the earliest queued pcb among the compatible ones with the
    fewest wildcard sides. -/
theorem lookup_best (T : Inpcbtable) (wildcard : Bool) (q : Tuple) :
    (inpcbLookup T wildcard q.faddr q.fport q.laddr q.lport = none ↔
      ∀ p ∈ T.pcbqueue, ¬ (T.pcb p).Compatible wildcard q) ∧
    ∀ p, inpcbLookup T wildcard q.faddr q.fport q.laddr q.lport = some p →
      (T.pcb p).Compatible wildcard q ∧ Earliest (fun p => (T.pcb p).rank wildcard q) T.pcbqueue p := by
  by_cases some : ∃ p ∈ T.pcbqueue, (T.pcb p).Compatible wildcard q
  · obtain ⟨p, member, compatible⟩ := some
    obtain ⟨w, first⟩ := @Earliest.exists _ _ _ (fun p => (T.pcb p).rank wildcard q) _ p member (by
      rw [InPcb.rank, if_pos compatible]
      rfl)
    obtain ⟨meant, found⟩ := lookup_earliest first
    rw [found]
    constructor
    · exact iff_of_false nofun fun all => all p member compatible
    · rintro _ ⟨⟩
      exact ⟨meant, first⟩
  · have all : ∀ p ∈ T.pcbqueue, ¬ (T.pcb p).Compatible wildcard q :=
      fun p member compatible => some ⟨p, member, compatible⟩
    have kept : bestFrom (· == 0) (fun p => (T.pcb p).rank wildcard q) T.pcbqueue 3 none = none := by
      apply bestFrom_kept
      intro p member j ranked
      simp only [InPcb.rank, if_neg (all p member)] at ranked
      cases ranked
    rw [inpcbLookup, lookupLoop_eq, kept]
    exact ⟨iff_of_true rfl all, nofun⟩

namespace Inpcbtable

variable (T : Inpcbtable) (live : Finset Nat) (q : Tuple)

def chain : List Nat := T.pcbhashtbl (inpcbhash T.hashmask q.faddr q.fport q.laddr q.lport)

/-- The answer to a query is a pcb of that tuple, or there is none; the chains hold what they held. -/
structure Answers : Prop where
  found : ∀ p, (inpcbHashlookup T q.faddr q.fport q.laddr q.lport).1 = some p → p ∈ live ∧ (T.pcb p).tuple = q
  missed : (inpcbHashlookup T q.faddr q.fport q.laddr q.lport).1 = none → ∀ p ∈ live, (T.pcb p).tuple ≠ q
  chains : ∀ i, ((inpcbHashlookup T q.faddr q.fport q.laddr q.lport).2.pcbhashtbl i).Perm (T.pcbhashtbl i)

/-- Another pcb of the queried addresses whose two ports are the same stands behind one of the
    queried tuple, and there is no pcb of that tuple when its ports differ. -/
structure Unmistaken : Prop where
  behind : ∀ before p after, T.chain q = before ++ p :: after → hashMatch (T.pcb p) q.faddr q.laddr = true →
    (T.pcb p).tuple ≠ q → ∃ p' ∈ before, (T.pcb p').tuple = q
  ports : q.fport ≠ q.lport → ∀ p ∈ T.chain q, (T.pcb p).tuple ≠ q

end Inpcbtable

theorem hashMatch_iff {inp : InPcb} {faddr laddr : UInt32} :
    hashMatch inp faddr laddr = true ↔ inp.faddr = faddr ∧ inp.fport = inp.lport ∧ inp.laddr = laddr := by
  simp [hashMatch, and_assoc]

theorem hashMatch_tuple {inp : InPcb} {q : Tuple} (own : inp.tuple = q) :
    hashMatch inp q.faddr q.laddr = true ↔ q.fport = q.lport := by
  subst own
  rw [hashMatch_iff]
  exact ⟨fun all => all.2.1, fun ports => ⟨rfl, ports, rfl⟩⟩

theorem index_tuple {T : Inpcbtable} {p : Nat} {q : Tuple} (own : (T.pcb p).tuple = q) :
    T.index p = inpcbhash T.hashmask q.faddr q.fport q.laddr q.lport := by
  subst own
  rfl

theorem hashlookup_find (T : Inpcbtable) (q : Tuple) : (inpcbHashlookup T q.faddr q.fport q.laddr q.lport).1 =
    (T.chain q).find? (fun cur => hashMatch (T.pcb cur) q.faddr q.laddr) := by
  unfold inpcbHashlookup Inpcbtable.chain
  dsimp only
  split <;> rename_i found <;> rw [found]

theorem hashlookup_perm {T : Inpcbtable} {live : Finset Nat} {key : Nat → UInt32}
    (filed : T.pcbhashtbl.Filed live key) (q : Tuple) (i : UInt32) :
    ((inpcbHashlookup T q.faddr q.fport q.laddr q.lport).2.pcbhashtbl i).Perm (T.pcbhashtbl i) := by
  unfold inpcbHashlookup
  dsimp only
  split
  · exact List.Perm.refl _
  · rename_i cur found
    have moved := filed.promote (List.mem_of_find?_eq_some found)
    exact List.perm_iff_count.mpr fun x => (moved x i).trans (filed x i).symm

/-- `inpcb_hashlookup` answers a query rightly exactly when it takes no other pcb for the one asked for. -/
theorem hashlookup_answers_iff (T : Inpcbtable) (live : Finset Nat)
    (filed : T.pcbhashtbl.Filed live T.index) (q : Tuple) :
    T.Answers live q ↔ T.Unmistaken q := by
  have onChain : ∀ p, p ∈ live → (T.pcb p).tuple = q → p ∈ T.chain q := by
    intro p member own
    have once := filed p (T.index p)
    rw [if_pos ⟨member, rfl⟩, index_tuple own] at once
    exact List.count_pos_iff.mp (once ▸ Nat.one_pos)
  have result := hashlookup_find T q
  constructor
  · intro answers
    have found := answers.found
    have missed := answers.missed
    rw [result] at found missed
    constructor
    · intro before p after split matched other
      rw [split, List.find?_append] at found
      cases first : before.find? (fun cur => hashMatch (T.pcb cur) q.faddr q.laddr) with
      | none =>
        rw [first, Option.none_or, List.find?_cons, matched] at found
        exact absurd (found p rfl).2 other
      | some r =>
        rw [first, Option.some_or] at found
        exact ⟨r, List.mem_of_find?_eq_some first, (found r rfl).2⟩
    · intro ports p member own
      cases first : (T.chain q).find? (fun cur => hashMatch (T.pcb cur) q.faddr q.laddr) with
      | none => exact missed first p (Chains.found_key (filed p _) member).1 own
      | some r =>
        have matched : hashMatch (T.pcb r) q.faddr q.laddr = true := by simpa using List.find?_some first
        exact ports ((hashMatch_tuple (found r first).2).mp matched)
  · intro unmistaken
    constructor
    · intro r first
      rw [result] at first
      refine ⟨(Chains.found_key (filed r _) (List.mem_of_find?_eq_some first)).1, ?_⟩
      obtain ⟨matched, before, after, split, sooner⟩ := List.find?_eq_some_iff_append.mp first
      by_contra other
      obtain ⟨p', ahead, own⟩ := unmistaken.behind before r after split matched other
      have unmatched := sooner p' ahead
      rw [Bool.not_eq_true', ← Bool.not_eq_true, hashMatch_tuple own] at unmatched
      exact unmistaken.ports unmatched p' (by simp [split, ahead]) own
    · intro none p member own
      rw [result, List.find?_eq_none] at none
      have inside := onChain p member own
      have unmatched := none p inside
      rw [hashMatch_tuple own] at unmatched
      exact unmistaken.ports unmatched p inside own
    · exact hashlookup_perm filed q

theorem onePcb_filed : Filed onePcb {0x8b020000} := by
  have filed := (initInpcb_filed 128 (fun _ => zeroPcb noOptions) (by decide)).1
  exact @Filed.alloc _ _ 0x8b020000 noOptions filed (by decide) (by decide)

abbrev freshPcbs : Inpcbtable := (allocInpcb onePcb 0x8b020100 noOptions).2
abbrev chainedPcbs : Inpcbtable :=
  ((inpcbBind oneIf 1 freshPcbs 0x8b020000 (some ⟨16, 2, htons 5115, htonl 0xc0a80105⟩) false).getD
    (1, freshPcbs)).2

theorem second_pcb_answers : chainedPcbs.chain ⟨0, 0, 0, 0⟩ = [0x8b020000, 0x8b020100] ∧
    chainedPcbs.Answers {0x8b020100, 0x8b020000} ⟨0, 0, 0, 0⟩ := by
  have fresh : Filed freshPcbs {0x8b020100, 0x8b020000} :=
    @Filed.alloc _ _ 0x8b020100 noOptions onePcb_filed (by decide) (by decide)
  have filed : Filed chainedPcbs {0x8b020100, 0x8b020000} :=
    (fresh.bind (by decide) (table_getD (d := (1, freshPcbs)) (by decide +kernel))).1
  have chain : chainedPcbs.chain ⟨0, 0, 0, 0⟩ = [0x8b020000, 0x8b020100] := by decide +kernel
  refine ⟨chain, (hashlookup_answers_iff chainedPcbs _ filed.chains ⟨0, 0, 0, 0⟩).mpr
    ⟨?_, fun differ => absurd rfl differ⟩⟩
  have one : ∀ p ∈ chainedPcbs.chain ⟨0, 0, 0, 0⟩, hashMatch (chainedPcbs.pcb p) 0 0 = true →
      (chainedPcbs.pcb p).tuple = ⟨0, 0, 0, 0⟩ := by
    decide +kernel
  intro before p after split matched other
  exact absurd (one p (by rw [split]; simp) matched) other

theorem boundPcb_filed : Filed boundPcb {0x8b020000} :=
  (onePcb_filed.bind (by decide) (table_getD (d := (1, onePcb)) (by decide +kernel))).1

/-- A pcb bound to a port is not found under its own addresses and ports. -/
theorem bound_pcb_missed : Filed boundPcb {0x8b020000} ∧ ¬ boundPcb.Answers {0x8b020000}
    (boundPcb.pcb 0x8b020000).tuple := by
  refine ⟨boundPcb_filed, fun answers => ?_⟩
  exact answers.missed (by decide +kernel) 0x8b020000 (by decide) rfl

end Embryo.Inet
