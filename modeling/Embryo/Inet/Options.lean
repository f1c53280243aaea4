import Embryo.Machine.Endian

namespace Embryo.Inet

open Embryo.Machine

structure Hosts where
  ip_dosrcroute : Bool
  ifa_ifwithaddr : UInt32 → Option UInt32
  ifa_ifwithdstaddr : UInt32 → Option UInt32
  ifa_ifwithnet : UInt32 → Option UInt32
  ifaof_ifpforaddr : UInt32 → Option UInt32
  ip_rtaddr : UInt32 → Option UInt32
  iptime : Nat → UInt32

inductive Handler
  | eol
  | nop
  | length
  | route
  | record
  | stamp
  | unknown
deriving DecidableEq

inductive Verdict
  | go
  | stop
  | bad (type : Nat) (code : Option Nat)
deriving DecidableEq

/-- What is done for the option at `at`: the option bytes read and written, and the change to
    `ip_dst` and `ip_srcrt`. -/
structure Visit where
  handler : Handler
  olen : Int
  reads : List Nat
  writes : List (Nat × UInt8)
  verdict : Verdict
  dst : UInt32
  srcrt : Option (UInt32 × List UInt8)

def schar (c : UInt8) : Int := c.toInt8.toInt

def laidAt (a : Nat) (values : List UInt8) : List (Nat × UInt8) := (List.range' a values.length).zip values

/-- The part of `bcopy` and of an assignment that is seen from outside. -/
def store (mem : Memory) (writes : List (Nat × UInt8)) : Memory :=
  writes.foldl (fun mem w => Function.update mem w.1 w.2) mem

def routeVisit (cp : Nat) (olen : Int) (reads : List Nat) (writes : List (Nat × UInt8))
    (verdict : Verdict) (dst : UInt32) (srcrt : Option (UInt32 × List UInt8)) : Visit :=
  ⟨.route, olen, [cp, cp + 1] ++ reads, writes, verdict, dst, srcrt⟩

def recordVisit (cp : Nat) (olen : Int) (dst : UInt32) (writes : List (Nat × UInt8))
    (verdict : Verdict) : Visit :=
  ⟨.record, olen, [cp, cp + 1, cp + 2], writes, verdict, dst, none⟩

def stampVisit (cp : Nat) (olen : Int) (dst : UInt32) (reads : List Nat)
    (writes : List (Nat × UInt8)) (verdict : Verdict) :
    Visit :=
  ⟨.stamp, olen, [cp, cp + 1, cp + 2] ++ reads, writes, verdict, dst, none⟩

section

variable (h : Hosts) (mem : Memory) (dst src : UInt32) (cp : Nat) (opt olen : Int)

/-- The case of `IPOPT_SSRR` and `IPOPT_LSRR`, with `save_rte`. -/
def sourceRoute : Visit :=
  let done := routeVisit cp olen
  if h.ip_dosrcroute = false then done [] [] (.bad 3 (some 5)) dst none else
  let off := schar (mem (cp + 2))
  if off < 4 then done [cp + 2] [] (.bad 12 (some (cp + 2))) dst none else
  match h.ifa_ifwithaddr dst with
  | none => done [cp + 2] [] (if opt = 137 then .bad 3 (some 5) else .go) dst none
  | some _ =>
    let off := off - 1
    if off > (olen - 4) % 2^32 then
      if olen > 43 then done [cp + 2] [] .go dst none
      else done ([cp + 2] ++ List.range' cp olen.toNat) [] .go dst (some (src, bytes mem cp olen.toNat))
    else
      let place := cp + off.toNat
      let hop := get32 mem place
      let ia := if opt = 137 then (h.ifa_ifwithdstaddr hop).or (h.ifa_ifwithnet hop) else h.ip_rtaddr hop
      match ia with
      | none => done ([cp + 2] ++ List.range' place 4) [] (.bad 3 (some 5)) dst none
      | some addr =>
        done ([cp + 2] ++ List.range' place 4) (laidAt place (bytes32 addr) ++
          [(cp + 2, mem (cp + 2) + 4)]) .go hop none

def recordRoute : Visit :=
  let done := recordVisit cp olen dst
  let off := schar (mem (cp + 2))
  if off < 4 then done [] (.bad 12 (some (cp + 2))) else
  let off := off - 1
  if off > (olen - 4) % 2^32 then done [] .go else
  match (h.ifa_ifwithaddr dst).bind fun _ => h.ip_rtaddr dst with
  | none => done [] (.bad 3 (some 1))
  | some addr => done (laidAt (cp + off.toNat) (bytes32 addr) ++ [(cp + 2, mem (cp + 2) + 4)]) .go

/-- The case of `IPOPT_TS`; the low half of the fourth byte is `ipt_flg` and the high half `ipt_oflw`. -/
def timestamp : Visit :=
  let done := stampVisit cp olen dst
  let len : Int := (mem (cp + 1)).toNat
  let ptr : Int := (mem (cp + 2)).toNat
  let place := cp + (ptr - 1).toNat
  let bad := Verdict.bad 12 (some cp)
  if ptr < 5 ∨ len < 5 then done [] [] bad else
  if ptr - 1 > (len - 4) % 2^32 then
    let oflw := ((mem (cp + 3)).toNat / 16 + 1) % 16
    done [cp + 3] [(cp + 3, UInt8.ofNat ((mem (cp + 3)).toNat % 16 + 16 * oflw))]
      (if oflw = 0 then bad else .go)
  else
    match (mem (cp + 3)).toNat % 16 with
    | 0 => done [cp + 3] (laidAt place (bytes32 (h.iptime cp)) ++ [(cp + 2, mem (cp + 2) + 4)]) .go
    | 1 =>
      if ptr - 1 > (len - 4 - 4) % 2^32 then done [cp + 3] [] bad else
      match h.ifaof_ifpforaddr dst with
      | none => done [cp + 3] [] .go
      | some addr =>
        done [cp + 3] (laidAt place (bytes32 addr) ++ [(cp + 2, mem (cp + 2) + 4)] ++
          laidAt (place + 4) (bytes32 (h.iptime cp)) ++ [(cp + 2, mem (cp + 2) + 4 + 4)]) .go
    | 3 =>
      if ptr - 1 > (len - 4 - 4) % 2^32 then done [cp + 3] [] bad else
      match h.ifa_ifwithaddr (get32 mem place) with
      | none => done ([cp + 3] ++ List.range' place 4) [] .go
      | some _ =>
        done ([cp + 3] ++ List.range' place 4) ([(cp + 2, mem (cp + 2) + 4)] ++
          laidAt (place + 4) (bytes32 (h.iptime cp)) ++ [(cp + 2, mem (cp + 2) + 4 + 4)]) .go
    | _ => done [cp + 3] [] bad

/-- The body of the loop, with `cnt` bytes left. -/
def optionStep (cnt : Int) : Visit :=
  let opt := schar (mem cp)
  if opt = 0 then ⟨.eol, 0, [cp], [], .stop, dst, none⟩
  else if opt = 1 then ⟨.nop, 1, [cp], [], .go, dst, none⟩
  else
    let olen := schar (mem (cp + 1))
    if olen > cnt ∨ olen ≤ 0 then ⟨.length, olen, [cp, cp + 1], [], .bad 12 (some (cp + 1)), dst, none⟩
    else if opt = 137 ∨ opt = 131 then sourceRoute h mem dst src cp opt olen
    else if opt = 7 then recordRoute h mem dst cp olen
    else if opt = 68 then timestamp h mem dst cp olen
    else ⟨.unknown, olen, [cp, cp + 1], [], .bad 12 none, dst, none⟩

end

def optionLoop (h : Hosts) (src : UInt32) :
    Nat → Memory → UInt32 → Nat → Int → Option (List (Nat × Memory × Visit) × Verdict)
  | 0, _, _, _, _ => none
  | fuel + 1, mem, dst, cp, cnt =>
    if cnt ≤ 0 then some ([], .stop) else
    let visit := optionStep h mem dst src cp cnt
    match visit.verdict with
    | .go =>
      (optionLoop h src fuel (store mem visit.writes) visit.dst (cp + visit.olen.toNat)
        (cnt - visit.olen)).map
        fun (visits, last) => ((cp, mem, visit) :: visits, last)
    | last => some ([(cp, mem, visit)], last)

def ip_dooptions (h : Hosts) (mem : Memory) (ip_len : Nat) (src dst : UInt32) :
    Option (List (Nat × Memory × Visit) × Verdict) :=
  optionLoop h src (4 * ip_len + 1) mem dst 20 (4 * ip_len - 4)

def ownHandler (code : UInt8) : Option Handler :=
  if code = 0 then some .eol else if code = 1 then some .nop else if code = 7 then some .record
  else if code = 68 then some .stamp else if code = 131 ∨ code = 137 then some .route else none

section

variable (h : Hosts) (mem : Memory) (hlen limit : Nat) (dst : UInt32) (p : Nat)

abbrev optLen : Nat := (mem (p + 1)).toNat
abbrev optPtr : Nat := (mem (p + 2)).toNat
abbrev optFlag : Nat := (mem (p + 3)).toNat % 16

/-- An option of more than one byte has its length inside the header, and a pointer past its own fields. -/
def WellFormed : Prop :=
  mem p = 0 ∨ mem p = 1 ∨ 3 ≤ optLen mem p ∧ p + optLen mem p ≤ hlen ∧ 4 ≤ optPtr mem p

/-- An option's bytes are in the header, what it writes is in the option, and a known code goes to
    its own handler. -/
def Kept (visit : Visit) : Prop :=
  (∀ a ∈ visit.reads, 20 ≤ a ∧ a < hlen) ∧ (∀ w ∈ visit.writes, 20 ≤ w.1 ∧ w.1 < hlen) ∧
  (∀ w ∈ visit.writes, p ≤ w.1 ∧ w.1 < p + visit.olen.toNat) ∧
  (∀ handler, ownHandler (mem p) = some handler → WellFormed mem hlen p → visit.handler = handler)

def Taken : Prop := 0 < optLen mem p ∧ optLen mem p < 128 ∧ p + optLen mem p ≤ limit

def Reached : Prop := (h.ifa_ifwithaddr dst).isSome ∧ (h.ip_rtaddr dst).isSome

/-- A record of route is in bounds if it is not written, or is long enough and written before the end. -/
def RecordFits : Prop :=
  p + 2 < hlen ∧
  (4 ≤ optPtr mem p → optPtr mem p < 128 → optLen mem p < 4 ∨ optPtr mem p + 3 ≤ optLen mem p →
    Reached h dst →
    4 ≤ optLen mem p ∧ p + optPtr mem p + 2 < hlen)

/-- A time stamp is in bounds if the places of the stamp and its address, when there is room for them, are. -/
def StampFits : Prop :=
  p + 2 < hlen ∧
  (5 ≤ optPtr mem p → 5 ≤ optLen mem p → p + 3 < hlen ∧
    (optPtr mem p + 3 ≤ optLen mem p →
      (optFlag mem p = 0 → p + optPtr mem p + 2 < hlen) ∧
      (optPtr mem p + 7 ≤ optLen mem p →
        (optFlag mem p = 1 → (h.ifaof_ifpforaddr dst).isSome → p + optPtr mem p + 6 < hlen) ∧
        (optFlag mem p = 3 → p + optPtr mem p + 2 < hlen ∧
          ((h.ifa_ifwithaddr (get32 mem (p + (optPtr mem p - 1)))).isSome → p + optPtr mem p + 6 < hlen)))))

def OptionFits : Prop :=
  p < hlen ∧
  (mem p ≠ 0 → mem p ≠ 1 → p + 1 < hlen ∧
    (Taken mem limit p →
      (mem p = 7 → RecordFits h mem hlen dst p) ∧ (mem p = 68 → StampFits h mem hlen dst p) ∧
      (mem p = 131 ∨ mem p = 137 → ¬ WellFormed mem hlen p)))

def GoesOn (q : Nat) : Prop :=
  (mem p = 1 ∧ q = p + 1) ∨
  (mem p = 7 ∧ Taken mem limit p ∧ q = p + optLen mem p ∧ 4 ≤ optPtr mem p ∧ optPtr mem p < 128 ∧
    (4 ≤ optLen mem p ∧ optLen mem p < optPtr mem p + 3 ∨ Reached h dst)) ∨
  (mem p = 68 ∧ Taken mem limit p ∧ q = p + optLen mem p ∧ 5 ≤ optPtr mem p ∧ 5 ≤ optLen mem p ∧
    (optLen mem p < optPtr mem p + 3 ∧ (mem (p + 3)).toNat / 16 ≠ 15 ∨
      optPtr mem p + 3 ≤ optLen mem p ∧
        (optFlag mem p = 0 ∨ (optFlag mem p = 1 ∨ optFlag mem p = 3) ∧ optPtr mem p + 7 ≤ optLen mem p)))

end

inductive InBounds (h : Hosts) (mem : Memory) (hlen limit : Nat) (dst : UInt32) : Nat → Prop
  | past {p : Nat} : limit ≤ p → InBounds h mem hlen limit dst p
  | option {p : Nat} : OptionFits h mem hlen limit dst p →
      (∀ q, GoesOn h mem limit dst p q → InBounds h mem hlen limit dst q) → InBounds h mem hlen limit dst p

theorem schar_eq (c : UInt8) : schar c = if c.toNat < 128 then (c.toNat : Int) else c.toNat - 256 := by
  rw [schar, Int8.toInt, UInt8.toBitVec_toInt8, BitVec.toInt_eq_toNat_cond, UInt8.toNat_toBitVec]
  split <;> split <;> omega

theorem mem_laidAt {a : Nat} {values : List UInt8} {w : Nat × UInt8} (held : w ∈ laidAt a values) :
    a ≤ w.1 ∧ w.1 < a + values.length :=
  List.mem_range'_1.mp (List.of_mem_zip held).1

theorem word_inside {a lo hi : Nat} (x : UInt32) :
    (∀ w ∈ laidAt a (bytes32 x), lo ≤ w.1 ∧ w.1 < hi) ↔ lo ≤ a ∧ a + 4 ≤ hi := by
  constructor
  · intro inside
    have first := inside (a, UInt8.ofNat x.toNat) List.mem_cons_self
    have last := inside (a + 3, UInt8.ofNat (x.toNat / 16777216)) (by simp [laidAt, bytes32, List.range'])
    omega
  · intro ends w held
    obtain ⟨low, high⟩ := mem_laidAt held
    rw [show (bytes32 x).length = 4 from rfl] at high
    omega

theorem byte_inside {a lo hi : Nat} {b : UInt8} : (∀ w ∈ [(a, b)], lo ≤ w.1 ∧ w.1 < hi) ↔ lo ≤ a ∧ a < hi :=
  List.forall_mem_singleton

theorem no_writes {P : Nat × UInt8 → Prop} : ∀ w ∈ ([] : List (Nat × UInt8)), P w :=
  fun _ held => absurd held List.not_mem_nil

section

variable {h : Hosts} {mem : Memory} {hlen limit p : Nat} {dst src : UInt32} {olen : Int}

theorem kept_bytes {visit : Visit} (own : ownHandler (mem p) = some visit.handler) :
    Kept mem hlen p visit ↔ (∀ a ∈ visit.reads, 20 ≤ a ∧ a < hlen) ∧
      (∀ w ∈ visit.writes, 20 ≤ w.1 ∧ w.1 < hlen) ∧
      (∀ w ∈ visit.writes, p ≤ w.1 ∧ w.1 < p + visit.olen.toNat) := by
  constructor
  · exact fun kept => ⟨kept.1, kept.2.1, kept.2.2.1⟩
  · rintro ⟨reads, writes, inside⟩
    refine ⟨reads, writes, inside, fun handler known _ => ?_⟩
    rw [own] at known
    exact Option.some.inj known

inductive Recorded (h : Hosts) (mem : Memory) (dst : UInt32) (p : Nat) (olen : Int) : Visit → Prop
  | refused {type code} : optPtr mem p < 4 ∨ 128 ≤ optPtr mem p →
      Recorded h mem dst p olen (recordVisit p olen dst [] (.bad type code))
  | full : 4 ≤ optPtr mem p → optPtr mem p < 128 → 4 ≤ optLen mem p → optLen mem p < optPtr mem p + 3 →
      Recorded h mem dst p olen (recordVisit p olen dst [] .go)
  | lost {type code} : 4 ≤ optPtr mem p → optPtr mem p < 128 → optLen mem p < 4 ∨
      optPtr mem p + 3 ≤ optLen mem p →
      ¬ Reached h dst → Recorded h mem dst p olen (recordVisit p olen dst [] (.bad type code))
  | written (addr : UInt32) (b : UInt8) : 4 ≤ optPtr mem p → optPtr mem p < 128 →
      optLen mem p < 4 ∨ optPtr mem p + 3 ≤ optLen mem p → Reached h dst →
      Recorded h mem dst p olen
        (recordVisit p olen dst (laidAt (p + (optPtr mem p - 1)) (bytes32 addr) ++ [(p + 2, b)]) .go)

inductive Stamped (h : Hosts) (mem : Memory) (dst : UInt32) (p : Nat) (olen : Int) : Visit → Prop
  | refused {type code} : optPtr mem p < 5 ∨ optLen mem p < 5 →
      Stamped h mem dst p olen (stampVisit p olen dst [] [] (.bad type code))
  | full (b : UInt8) (verdict : Verdict) : 5 ≤ optPtr mem p → 5 ≤ optLen mem p →
      optLen mem p < optPtr mem p + 3 →
      (verdict = .go ↔ (mem (p + 3)).toNat / 16 ≠ 15) →
      Stamped h mem dst p olen (stampVisit p olen dst [p + 3] [(p + 3, b)] verdict)
  | time (stamp : UInt32) (b : UInt8) : 5 ≤ optPtr mem p → optPtr mem p + 3 ≤ optLen mem p →
      optFlag mem p = 0 →
      Stamped h mem dst p olen
        (stampVisit p olen dst [p + 3] (laidAt (p + (optPtr mem p - 1)) (bytes32 stamp) ++ [(p + 2, b)]) .go)
  | unflagged {type code} : 5 ≤ optPtr mem p → optPtr mem p + 3 ≤ optLen mem p →
      ¬ (optFlag mem p = 0 ∨ (optFlag mem p = 1 ∨ optFlag mem p = 3) ∧ optPtr mem p + 7 ≤ optLen mem p) →
      Stamped h mem dst p olen (stampVisit p olen dst [p + 3] [] (.bad type code))
  | unaddressed : 5 ≤ optPtr mem p → optPtr mem p + 7 ≤ optLen mem p → optFlag mem p = 1 →
      h.ifaof_ifpforaddr dst = none →
      Stamped h mem dst p olen (stampVisit p olen dst [p + 3] [] .go)
  | addressed (addr stamp : UInt32) (b c : UInt8) : 5 ≤ optPtr mem p →
      optPtr mem p + 7 ≤ optLen mem p → optFlag mem p = 1 →
      h.ifaof_ifpforaddr dst = some addr → Stamped h mem dst p olen (stampVisit p olen dst [p + 3]
        (laidAt (p + (optPtr mem p - 1)) (bytes32 addr) ++ [(p + 2, b)] ++
          laidAt (p + optPtr mem p + 3) (bytes32 stamp) ++
          [(p + 2, c)]) .go)
  | elsewhere : 5 ≤ optPtr mem p → optPtr mem p + 7 ≤ optLen mem p → optFlag mem p = 3 →
      h.ifa_ifwithaddr (get32 mem (p + (optPtr mem p - 1))) = none →
      Stamped h mem dst p olen (stampVisit p olen dst
        ([p + 3] ++ List.range' (p + (optPtr mem p - 1)) 4) [] .go)
  | here (addr stamp : UInt32) (b c : UInt8) : 5 ≤ optPtr mem p → optPtr mem p + 7 ≤ optLen mem p →
      optFlag mem p = 3 →
      h.ifa_ifwithaddr (get32 mem (p + (optPtr mem p - 1))) = some addr →
      Stamped h mem dst p olen (stampVisit p olen dst ([p + 3] ++ List.range' (p + (optPtr mem p - 1)) 4)
        ([(p + 2, b)] ++ laidAt (p + optPtr mem p + 3) (bytes32 stamp) ++ [(p + 2, c)]) .go)

theorem recordRoute_recorded (len : olen = optLen mem p) (small : optLen mem p < 128) :
    Recorded h mem dst p olen (recordRoute h mem dst p olen) := by
  have ptr : schar (mem (p + 2)) = if optPtr mem p < 128 then (optPtr mem p : Int)
    else optPtr mem p - 256 := schar_eq _
  unfold recordRoute
  by_cases refused : schar (mem (p + 2)) < 4
  · simp only [if_pos refused]
    exact .refused (by split at ptr <;> omega)
  · have range : 4 ≤ optPtr mem p ∧ optPtr mem p < 128 := by
      have byte : optPtr mem p < 256 := (mem (p + 2)).toNat_lt
      split at ptr <;> omega
    rw [if_pos range.2] at ptr
    simp only [if_neg refused]
    by_cases skipped : schar (mem (p + 2)) - 1 > (olen - 4) % 2^32
    · simp only [if_pos skipped]
      exact .full range.1 range.2 (by omega) (by omega)
    · simp only [if_neg skipped]
      cases reached : (h.ifa_ifwithaddr dst).bind fun _ => h.ip_rtaddr dst with
      | none =>
        refine .lost range.1 range.2 (by omega) ?_
        rintro ⟨found, routed⟩
        obtain ⟨a, found⟩ := Option.isSome_iff_exists.mp found
        obtain ⟨b, routed⟩ := Option.isSome_iff_exists.mp routed
        rw [found, Option.bind_some, routed] at reached
        exact absurd reached (by simp)
      | some addr =>
        obtain ⟨a, found, routed⟩ := Option.bind_eq_some_iff.mp reached
        have place : p + (schar (mem (p + 2)) - 1).toNat = p + (optPtr mem p - 1) := by omega
        simp only
        rw [place]
        exact .written addr _ range.1 range.2 (by omega) ⟨found ▸ rfl, routed ▸ rfl⟩

theorem timestamp_stamped : Stamped h mem dst p olen (timestamp h mem dst p olen) := by
  have lenByte := (mem (p + 1)).toNat_lt
  unfold timestamp
  by_cases refused : ((mem (p + 2)).toNat : Int) < 5 ∨ ((mem (p + 1)).toNat : Int) < 5
  · simp only [if_pos refused]
    exact .refused (by simp only [optPtr, optLen]; omega)
  have ptr : 5 ≤ (mem (p + 2)).toNat := by omega
  have len : 5 ≤ (mem (p + 1)).toNat := by omega
  have place : p + (((mem (p + 2)).toNat : Int) - 1).toNat = p + (optPtr mem p - 1) := by
    simp only [optPtr]; omega
  have next : p + (optPtr mem p - 1) + 4 = p + optPtr mem p + 3 := by simp only [optPtr]; omega
  simp only [if_neg refused, place, next]
  by_cases full : ((mem (p + 2)).toNat : Int) - 1 > (((mem (p + 1)).toNat : Int) - 4) % 2^32
  · simp only [if_pos full]
    refine .full _ _ ptr len (by simp only [optPtr, optLen]; omega) ?_
    have byte := (mem (p + 3)).toNat_lt
    split <;> simp <;> omega
  have room : (mem (p + 2)).toNat + 3 ≤ (mem (p + 1)).toNat := by omega
  simp only [if_neg full]
  split
  next flag => exact .time _ _ ptr room flag
  next flag =>
    by_cases both : ((mem (p + 2)).toNat : Int) - 1 > (((mem (p + 1)).toNat : Int) - 4 - 4) % 2^32
    · rw [if_pos both]
      exact .unflagged ptr room (by simp only [optPtr, optLen, optFlag]; omega)
    · have more : (mem (p + 2)).toNat + 7 ≤ (mem (p + 1)).toNat := by omega
      rw [if_neg both]
      cases found : h.ifaof_ifpforaddr dst with
      | none => exact .unaddressed ptr more flag found
      | some addr => exact .addressed addr _ _ _ ptr more flag found
  next flag =>
    by_cases both : ((mem (p + 2)).toNat : Int) - 1 > (((mem (p + 1)).toNat : Int) - 4 - 4) % 2^32
    · rw [if_pos both]
      exact .unflagged ptr room (by simp only [optPtr, optLen, optFlag]; omega)
    · have more : (mem (p + 2)).toNat + 7 ≤ (mem (p + 1)).toNat := by omega
      rw [if_neg both]
      cases found : h.ifa_ifwithaddr (get32 mem (p + (optPtr mem p - 1))) with
      | none => exact .elsewhere ptr more flag found
      | some addr => exact .here addr _ _ _ ptr more flag found
  next zero one three =>
    refine .unflagged ptr room ?_
    rintro (flag | ⟨flag | flag, -⟩)
    · exact zero flag
    · exact one flag
    · exact three flag

theorem first_three (rest : List Nat) (low : 20 ≤ p) :
    (∀ a ∈ [p, p + 1, p + 2] ++ rest, 20 ≤ a ∧ a < hlen) ↔ p + 2 < hlen ∧ ∀ a ∈ rest, 20 ≤ a ∧ a < hlen := by
  rw [List.forall_mem_append]
  apply and_congr_left'
  simp only [List.forall_mem_cons, List.not_mem_nil, false_imp_iff, implies_true, and_true]
  omega

theorem recordVisit_kept {writes : List (Nat × UInt8)} {verdict : Verdict} (code : mem p = 7) (low : 20 ≤ p) :
    Kept mem hlen p (recordVisit p olen dst writes verdict) ↔ p + 2 < hlen ∧
      (∀ w ∈ writes, 20 ≤ w.1 ∧ w.1 < hlen) ∧ (∀ w ∈ writes, p ≤ w.1 ∧ w.1 < p + olen.toNat) := by
  rw [kept_bytes (by rw [code]; rfl)]
  apply and_congr_left'
  exact (first_three [] low).trans (and_iff_left fun _ held => absurd held List.not_mem_nil)

theorem stampVisit_kept {reads : List Nat} {writes : List (Nat × UInt8)} {verdict : Verdict}
    (code : mem p = 68) (low : 20 ≤ p) :
    Kept mem hlen p (stampVisit p olen dst reads writes verdict) ↔
      (p + 2 < hlen ∧ ∀ a ∈ reads, 20 ≤ a ∧ a < hlen) ∧
      (∀ w ∈ writes, 20 ≤ w.1 ∧ w.1 < hlen) ∧ (∀ w ∈ writes, p ≤ w.1 ∧ w.1 < p + olen.toNat) := by
  rw [kept_bytes (by rw [code]; rfl)]
  exact and_congr_left' (first_three _ low)

theorem Recorded.kept {visit : Visit} (recorded : Recorded h mem dst p olen visit)
    (code : mem p = 7) (low : 20 ≤ p)
    (len : olen = optLen mem p) : Kept mem hlen p visit ↔ RecordFits h mem hlen dst p := by
  rw [RecordFits]
  cases recorded with
  | refused range =>
    rw [recordVisit_kept code low]
    exact ⟨fun kept => ⟨kept.1, fun _ _ => by omega⟩, fun fits => ⟨fits.1, no_writes, no_writes⟩⟩
  | full more less four short =>
    rw [recordVisit_kept code low]
    exact ⟨fun kept => ⟨kept.1, fun _ _ => by omega⟩, fun fits => ⟨fits.1, no_writes, no_writes⟩⟩
  | lost more less room lost =>
    rw [recordVisit_kept code low]
    exact ⟨fun kept => ⟨kept.1, fun _ _ _ held => absurd held lost⟩, fun fits =>
      ⟨fits.1, no_writes, no_writes⟩⟩
  | written addr b more less room reached =>
    rw [recordVisit_kept code low, List.forall_mem_append, List.forall_mem_append, word_inside,
      word_inside, byte_inside,
      byte_inside]
    constructor
    · rintro ⟨inside, ⟨⟨-, high⟩, -⟩, ⟨-, room⟩, -⟩
      exact ⟨inside, fun _ _ _ _ => by omega⟩
    · rintro ⟨inside, fits⟩
      have ends := fits more less room reached
      omega

theorem Recorded.goes {visit : Visit} (recorded : Recorded h mem dst p olen visit) :
    visit.verdict = .go ↔ 4 ≤ optPtr mem p ∧ optPtr mem p < 128 ∧
      (4 ≤ optLen mem p ∧ optLen mem p < optPtr mem p + 3 ∨ Reached h dst) := by
  cases recorded with
  | refused range => exact ⟨fun go => absurd go (by simp [recordVisit]), fun held => by omega⟩
  | full more less four short => exact ⟨fun _ => ⟨more, less, .inl ⟨four, short⟩⟩, fun _ => rfl⟩
  | lost more less room lost =>
    refine ⟨fun go => absurd go (by simp [recordVisit]), fun held => ?_⟩
    rcases held.2.2 with short | reached
    · omega
    · exact absurd reached lost
  | written _ _ more less room reached => exact ⟨fun _ => ⟨more, less, .inr reached⟩, fun _ => rfl⟩

theorem range_inside {a : Nat} : (∀ x ∈ [p + 3] ++ List.range' a 4, 20 ≤ x ∧ x < hlen) ↔
    (20 ≤ p + 3 ∧ p + 3 < hlen) ∧ 20 ≤ a ∧ a + 3 < hlen := by
  rw [List.forall_mem_append, List.forall_mem_singleton]
  apply and_congr_right'
  constructor
  · intro inside
    have first := inside a (List.mem_range'_1.mpr (by omega))
    have last := inside (a + 3) (List.mem_range'_1.mpr (by omega))
    omega
  · intro ends x held
    have range := List.mem_range'_1.mp held
    omega

theorem Stamped.kept {visit : Visit} (stamped : Stamped h mem dst p olen visit) (code : mem p = 68)
    (low : 20 ≤ p)
    (len : olen = optLen mem p) : Kept mem hlen p visit ↔ StampFits h mem hlen dst p := by
  rw [StampFits]
  cases stamped with
  | refused range =>
    rw [stampVisit_kept code low]
    exact ⟨fun kept => ⟨kept.1.1, fun _ _ => by omega⟩, fun fits => ⟨⟨fits.1, by simp⟩, no_writes, no_writes⟩⟩
  | full b verdict ptr five short goes =>
    rw [stampVisit_kept code low, byte_inside, byte_inside, List.forall_mem_singleton]
    constructor
    · exact fun kept => ⟨kept.1.1, fun _ _ => ⟨kept.1.2.2, fun _ => by omega⟩⟩
    · intro fits
      have flag := (fits.2 ptr five).1
      omega
  | time stamp b ptr room flag =>
    rw [stampVisit_kept code low, List.forall_mem_append, List.forall_mem_append, word_inside,
      word_inside, byte_inside,
      byte_inside, List.forall_mem_singleton]
    constructor
    · exact fun kept => ⟨kept.1.1, fun _ _ => ⟨kept.1.2.2, fun _ => by omega⟩⟩
    · intro fits
      have inside := fits.2 ptr (by omega)
      have ends := (inside.2 room).1 flag
      omega
  | unflagged ptr room not =>
    rw [stampVisit_kept code low, List.forall_mem_singleton]
    constructor
    · exact fun kept => ⟨kept.1.1, fun _ _ => ⟨kept.1.2.2, fun _ => by omega⟩⟩
    · intro fits
      have flag := (fits.2 ptr (by omega)).1
      exact ⟨⟨fits.1, by omega⟩, no_writes, no_writes⟩
  | unaddressed ptr room flag found =>
    rw [stampVisit_kept code low, List.forall_mem_singleton, found]
    constructor
    · intro kept
      refine ⟨kept.1.1, fun _ _ => ⟨kept.1.2.2, fun _ => ⟨by omega, fun _ => ⟨?_, by omega⟩⟩⟩⟩
      exact fun _ some => absurd some (by simp)
    · intro fits
      have inside := (fits.2 ptr (by omega)).1
      exact ⟨⟨fits.1, by omega⟩, no_writes, no_writes⟩
  | addressed addr stamp b c ptr room flag found =>
    simp only [stampVisit_kept code low, List.forall_mem_append, word_inside, List.forall_mem_singleton]
    constructor
    · exact fun kept => ⟨kept.1.1, fun _ _ =>
        ⟨kept.1.2.2, fun _ => ⟨by omega, fun _ => ⟨fun _ _ => by omega, by omega⟩⟩⟩⟩
    · intro fits
      have inside := fits.2 ptr (by omega)
      have ends := ((inside.2 (by omega)).2 room).1 flag (found ▸ rfl)
      omega
  | elsewhere ptr room flag found =>
    rw [stampVisit_kept code low, range_inside, found]
    constructor
    · intro kept
      refine ⟨kept.1.1, fun _ _ => ⟨kept.1.2.1.2, fun _ =>
        ⟨by omega, fun _ => ⟨by omega, fun _ => ⟨by omega, ?_⟩⟩⟩⟩⟩
      exact fun some => absurd some (by simp)
    · intro fits
      have inside := fits.2 ptr (by omega)
      have ends := (((inside.2 (by omega)).2 room).2 flag).1
      exact ⟨⟨fits.1, by omega⟩, no_writes, no_writes⟩
  | here addr stamp b c ptr room flag found =>
    rw [stampVisit_kept code low, range_inside]
    simp only [List.forall_mem_append, word_inside, byte_inside]
    constructor
    · exact fun kept => ⟨kept.1.1, fun _ _ =>
        ⟨kept.1.2.1.2, fun _ => ⟨by omega, fun _ => ⟨by omega, fun _ => by omega⟩⟩⟩⟩
    · intro fits
      have inside := fits.2 ptr (by omega)
      have ends := (((inside.2 (by omega)).2 room).2 flag).2 (found ▸ rfl)
      omega

theorem Stamped.goes {visit : Visit} (stamped : Stamped h mem dst p olen visit) :
    visit.verdict = .go ↔ 5 ≤ optPtr mem p ∧ 5 ≤ optLen mem p ∧
      (optLen mem p < optPtr mem p + 3 ∧ (mem (p + 3)).toNat / 16 ≠ 15 ∨ optPtr mem p + 3 ≤ optLen mem p ∧
        (optFlag mem p = 0 ∨ (optFlag mem p = 1 ∨ optFlag mem p = 3) ∧ optPtr mem p + 7 ≤ optLen mem p)) := by
  cases stamped with
  | refused range => exact ⟨fun go => absurd go (by simp [stampVisit]), fun held => by omega⟩
  | full b verdict ptr five short goes =>
    exact goes.trans ⟨fun free => ⟨ptr, five, .inl ⟨short, free⟩⟩, fun held => by omega⟩
  | unflagged ptr room not =>
    refine ⟨fun go => absurd go (by simp [stampVisit]), fun held => ?_⟩
    rcases held.2.2 with short | flags
    · omega
    · exact absurd flags.2 not
  | time _ _ ptr room flag => exact ⟨fun _ => ⟨ptr, by omega, .inr ⟨room, .inl flag⟩⟩, fun _ => rfl⟩
  | unaddressed ptr room flag | addressed _ _ _ _ ptr room flag =>
    exact ⟨fun _ => ⟨ptr, by omega, .inr ⟨by omega, .inr ⟨.inl flag, room⟩⟩⟩, fun _ => rfl⟩
  | elsewhere ptr room flag | here _ _ _ _ ptr room flag =>
    exact ⟨fun _ => ⟨ptr, by omega, .inr ⟨by omega, .inr ⟨.inr flag, room⟩⟩⟩, fun _ => rfl⟩

theorem Recorded.plain {visit : Visit} (recorded : Recorded h mem dst p olen visit) :
    visit.olen = olen ∧ visit.dst = dst := by
  cases recorded <;> exact ⟨rfl, rfl⟩

theorem Stamped.plain {visit : Visit} (stamped : Stamped h mem dst p olen visit) :
    visit.olen = olen ∧ visit.dst = dst := by
  cases stamped <;> exact ⟨rfl, rfl⟩

theorem schar_iff {c d : UInt8} (small : d.toNat < 128) : schar c = (d.toNat : Int) ↔ c = d := by
  have byte := c.toNat_lt
  rw [schar_eq, ← UInt8.toNat_inj]
  split <;> omega

theorem schar_route (c : UInt8) : ¬ (schar c = 137 ∨ schar c = 131) := by
  have byte := c.toNat_lt
  rw [schar_eq]
  split <;> omega

theorem taken_iff :
    ¬ (schar (mem (p + 1)) > (limit : Int) - p ∨ schar (mem (p + 1)) ≤ 0) ↔ Taken mem limit p := by
  have byte := (mem (p + 1)).toNat_lt
  rw [schar_eq, Taken]
  simp only [optLen]
  split <;> omega

theorem Taken.schar_eq (taken : Taken mem limit p) : schar (mem (p + 1)) = optLen mem p := by
  rw [Inet.schar_eq, if_pos taken.2.1]

theorem first_two (low : 20 ≤ p) : (∀ a ∈ [p, p + 1], 20 ≤ a ∧ a < hlen) ↔ p + 1 < hlen := by
  simp only [List.forall_mem_cons, List.not_mem_nil, false_imp_iff, implies_true, and_true]
  omega

theorem goesOn_other {q : Nat} (nop : mem p ≠ 1) (record : mem p ≠ 7) (stamp : mem p ≠ 68) :
    ¬ GoesOn h mem limit dst p q := by
  rintro (⟨code, -⟩ | ⟨code, -⟩ | ⟨code, -⟩)
  · exact nop code
  · exact record code
  · exact stamp code

theorem WellFormed.taken (formed : WellFormed mem hlen p) (eol : mem p ≠ 0) (nop : mem p ≠ 1) (low : 20 ≤ p)
    (within : hlen ≤ limit) (short : hlen ≤ 60) : Taken mem limit p := by
  obtain zero | one | ⟨some, inside, -⟩ := formed
  · exact absurd zero eol
  · exact absurd one nop
  · rw [Taken]
    omega

/-- A visit is in bounds as the bytes of the option say, and the walk goes on from it as they say. -/
def Described (h : Hosts) (mem : Memory) (hlen limit : Nat) (dst : UInt32) (p : Nat) (visit : Visit) : Prop :=
  (Kept mem hlen p visit ↔ OptionFits h mem hlen limit dst p) ∧
  (∀ q, visit.verdict = .go ∧ q = p + visit.olen.toNat ↔ GoesOn h mem limit dst p q) ∧
  (visit.verdict = .go → visit.dst = dst ∧ 0 < visit.olen ∧ p + visit.olen ≤ limit)

theorem Recorded.described {visit : Visit} (recorded : Recorded h mem dst p olen visit)
    (code : mem p = 7) (low : 20 ≤ p)
    (taken : Taken mem limit p) (len : olen = optLen mem p) : Described h mem hlen limit dst p visit := by
  obtain ⟨same, kept⟩ := recorded.plain
  have size : visit.olen.toNat = optLen mem p := by omega
  have others : mem p ≠ 0 ∧ mem p ≠ 1 ∧ mem p ≠ 68 ∧ ¬ (mem p = 131 ∨ mem p = 137) := by rw [code]; decide
  refine ⟨?_, fun q => ?_, fun _ => ⟨kept, ?_⟩⟩
  · rw [recorded.kept code low len, OptionFits]
    constructor
    · exact fun fits => ⟨by have := fits.1; omega, fun _ _ => ⟨by have := fits.1; omega, fun _ =>
        ⟨fun _ => fits, fun no => absurd no others.2.2.1, fun no => absurd no others.2.2.2⟩⟩⟩
    · exact fun fits => ((fits.2 others.1 others.2.1).2 taken).1 code
  · rw [recorded.goes, size, GoesOn]
    constructor
    · exact fun held => .inr (.inl ⟨code, taken, held.2, held.1⟩)
    · rintro (⟨no, -⟩ | ⟨-, -, next, held⟩ | ⟨no, -⟩)
      · exact absurd no others.2.1
      · exact ⟨held, next⟩
      · exact absurd no others.2.2.1
  · obtain ⟨pos, -, ends⟩ := taken
    omega

theorem Stamped.described {visit : Visit} (stamped : Stamped h mem dst p olen visit)
    (code : mem p = 68) (low : 20 ≤ p)
    (taken : Taken mem limit p) (len : olen = optLen mem p) : Described h mem hlen limit dst p visit := by
  obtain ⟨same, kept⟩ := stamped.plain
  have size : visit.olen.toNat = optLen mem p := by omega
  have others : mem p ≠ 0 ∧ mem p ≠ 1 ∧ mem p ≠ 7 ∧ ¬ (mem p = 131 ∨ mem p = 137) := by rw [code]; decide
  refine ⟨?_, fun q => ?_, fun _ => ⟨kept, ?_⟩⟩
  · rw [stamped.kept code low len, OptionFits]
    constructor
    · exact fun fits => ⟨by have := fits.1; omega, fun _ _ => ⟨by have := fits.1; omega, fun _ =>
        ⟨fun no => absurd no others.2.2.1, fun _ => fits, fun no => absurd no others.2.2.2⟩⟩⟩
    · exact fun fits => ((fits.2 others.1 others.2.1).2 taken).2.1 code
  · rw [stamped.goes, size, GoesOn]
    constructor
    · exact fun held => .inr (.inr ⟨code, taken, held.2, held.1⟩)
    · rintro (⟨no, -⟩ | ⟨no, -⟩ | ⟨-, -, next, held⟩)
      · exact absurd no others.2.1
      · exact absurd no others.2.2.1
      · exact ⟨held, next⟩
  · obtain ⟨pos, -, ends⟩ := taken
    omega

theorem described_stop {visit : Visit} (stops : visit.verdict ≠ .go)
    (ends : ∀ q, ¬ GoesOn h mem limit dst p q)
    (kept : Kept mem hlen p visit ↔ OptionFits h mem hlen limit dst p) :
    Described h mem hlen limit dst p visit :=
  ⟨kept, fun q => ⟨fun go => absurd go.1 stops, fun goes => absurd goes (ends q)⟩, fun go => absurd go stops⟩

theorem optionStep_described (low : 20 ≤ p) (high : p < limit) (within : hlen ≤ limit) (short : hlen ≤ 60) :
    Described h mem hlen limit dst p (optionStep h mem dst src p ((limit : Int) - p)) := by
  unfold optionStep
  have eol : schar (mem p) = 0 ↔ mem p = 0 := schar_iff (d := 0) (by decide)
  have nop : schar (mem p) = 1 ↔ mem p = 1 := schar_iff (d := 1) (by decide)
  have record : schar (mem p) = 7 ↔ mem p = 7 := schar_iff (d := 7) (by decide)
  have stamp : schar (mem p) = 68 ↔ mem p = 68 := schar_iff (d := 68) (by decide)
  by_cases atEol : mem p = 0
  · simp only [if_pos (eol.mpr atEol)]
    apply described_stop (by simp)
    · exact fun q => goesOn_other (by rw [atEol]; decide) (by rw [atEol]; decide) (by rw [atEol]; decide)
    · rw [kept_bytes (by rw [atEol]; rfl), OptionFits]
      simp [atEol, low]
  by_cases atNop : mem p = 1
  · simp only [if_neg fun same => atEol (eol.mp same), if_pos (nop.mpr atNop)]
    refine ⟨?_, fun q => ?_, fun _ => ⟨rfl, Int.one_pos, by simp only; omega⟩⟩
    · rw [kept_bytes (by rw [atNop]; rfl), OptionFits]
      simp [atNop, low]
    · rw [GoesOn, atNop]
      simp
  simp only [if_neg fun same => atEol (eol.mp same), if_neg fun same => atNop (nop.mp same)]
  by_cases taken : Taken mem limit p
  · simp only [if_neg (taken_iff.mpr taken), if_neg (schar_route (mem p))]
    by_cases atRecord : mem p = 7
    · simp only [if_pos (record.mpr atRecord)]
      exact (recordRoute_recorded taken.schar_eq taken.2.1).described atRecord low taken taken.schar_eq
    by_cases atStamp : mem p = 68
    · simp only [if_neg fun same => atRecord (record.mp same), if_pos (stamp.mpr atStamp)]
      exact timestamp_stamped.described atStamp low taken taken.schar_eq
    simp only [if_neg fun same => atRecord (record.mp same), if_neg fun same => atStamp (stamp.mp same)]
    apply described_stop (by simp)
    · exact fun q => goesOn_other atNop atRecord atStamp
    · rw [Kept, first_two low, OptionFits]
      constructor
      · intro kept
        refine ⟨by
          omega, fun _ _ => ⟨kept.1, fun _ => ⟨fun no => absurd no atRecord, fun no =>
            absurd no atStamp, ?_⟩⟩⟩
        intro route formed
        have own : ownHandler (mem p) = some .route := by rcases route with code | code <;> rw [code] <;> rfl
        have handled : Handler.unknown = .route := kept.2.2.2 .route own formed
        exact absurd handled (by decide)
      · intro fits
        obtain ⟨inside, known⟩ := fits.2 atEol atNop
        refine ⟨inside, no_writes, no_writes, fun handler own formed => ?_⟩
        rw [ownHandler, if_neg atEol, if_neg atNop, if_neg atRecord, if_neg atStamp] at own
        split at own
        next route => exact absurd formed ((known taken).2.2 route)
        next => exact absurd own (by simp)
  · simp only [if_pos (not_not.mp (mt taken_iff.mp taken))]
    apply described_stop (by simp)
    · rintro q (⟨code, -⟩ | ⟨-, no, -⟩ | ⟨-, no, -⟩)
      · exact atNop code
      · exact taken no
      · exact taken no
    · rw [Kept, first_two low, OptionFits]
      constructor
      · exact fun kept => ⟨by omega, fun _ _ => ⟨kept.1, fun held => absurd held taken⟩⟩
      · intro fits
        refine ⟨(fits.2 atEol atNop).1, no_writes, no_writes, fun handler _ formed => ?_⟩
        exact absurd (formed.taken atEol atNop low within short) taken

theorem store_other {writes : List (Nat × UInt8)} {x : Nat} (apart : ∀ w ∈ writes, w.1 ≠ x) :
    store mem writes x = mem x := by
  induction writes generalizing mem with
  | nil => rfl
  | cons w writes ih =>
    rw [store, List.foldl_cons]
    exact (ih fun v held => apart v (List.mem_cons_of_mem w held)).trans
      (Function.update_of_ne (apart w List.mem_cons_self).symm _ _)

theorem option_congr {mem' : Memory} (same : ∀ x, p ≤ x → mem' x = mem x) :
    (OptionFits h mem' hlen limit dst p ↔ OptionFits h mem hlen limit dst p) ∧
    ∀ q, GoesOn h mem' limit dst p q ↔ GoesOn h mem limit dst p q := by
  have word : get32 mem' (p + ((mem (p + 2)).toNat - 1)) = get32 mem (p + ((mem (p + 2)).toNat - 1)) := by
    simp only [get32, load32]
    rw [same _ (by omega), same _ (by omega), same _ (by omega), same _ (by omega)]
  constructor
  · simp only [OptionFits, RecordFits, StampFits, WellFormed, Taken, optLen, optPtr, optFlag,
      same p (Nat.le_refl p),
      same (p + 1) (by omega), same (p + 2) (by omega), same (p + 3) (by omega), word]
  · simp only [GoesOn, Taken, optLen, optPtr, optFlag, same p (Nat.le_refl p), same (p + 1) (by omega),
      same (p + 2) (by omega), same (p + 3) (by omega), implies_true]

theorem InBounds.congr {mem' : Memory} (same : ∀ x, p ≤ x → mem' x = mem x)
    (bounds : InBounds h mem hlen limit dst p) :
    InBounds h mem' hlen limit dst p := by
  induction bounds with
  | past reached => exact .past reached
  | @option p fits _ ih =>
    obtain ⟨fit, goes⟩ := @option_congr h mem hlen limit p dst mem' same
    refine .option (fit.mpr fits) fun q on => ?_
    have next := (goes q).mp on
    refine ih q next fun x later => same x ?_
    rcases next with ⟨-, rfl⟩ | ⟨-, -, rfl, -⟩ | ⟨-, -, rfl, -⟩ <;> omega

theorem optionLoop_kept {fuel : Nat} (low : 20 ≤ p) (high : p ≤ limit) (within : hlen ≤ limit)
    (short : hlen ≤ 60) (enough : limit - p < fuel) :
    ∃ visits last, optionLoop h src fuel mem dst p ((limit : Int) - p) = some (visits, last) ∧
      ((∀ v ∈ visits, Kept v.2.1 hlen v.1 v.2.2) ↔ InBounds h mem hlen limit dst p) := by
  induction fuel generalizing mem p with
  | zero => exact absurd enough (Nat.not_lt_zero _)
  | succ fuel ih =>
    rw [optionLoop]
    by_cases spent : (limit : Int) - p ≤ 0
    · rw [if_pos spent]
      exact ⟨[], .stop, rfl, fun _ => .past (by omega), fun _ v held => absurd held List.not_mem_nil⟩
    rw [if_neg spent]
    have described := @optionStep_described h mem hlen limit p dst src low (by omega) within short
    generalize optionStep h mem dst src p ((limit : Int) - p) = visit at described ⊢
    obtain ⟨kept, goes, plain⟩ := described
    simp only
    split
    next go =>
      obtain ⟨sameDst, pos, inside⟩ := plain go
      obtain ⟨visits, last, runs, right⟩ := @ih (store mem visit.writes) (p + visit.olen.toNat)
        (by omega) (by omega) (by omega)
      have count : (limit : Int) - p - visit.olen = (limit : Int) - (p + visit.olen.toNat : Nat) := by omega
      rw [sameDst, count, runs]
      refine ⟨(p, mem, visit) :: visits, last, rfl, ?_⟩
      rw [List.forall_mem_cons, right]
      have frame : Kept mem hlen p visit → ∀ x, p + visit.olen.toNat ≤ x →
          store mem visit.writes x = mem x := by
        intro held x later
        refine store_other fun w member same => ?_
        have own := held.2.2.1 w member
        omega
      constructor
      · rintro ⟨held, rest⟩
        refine .option (kept.mp held) fun q on => ?_
        rw [((goes q).mpr on).2]
        exact rest.congr fun x later => (frame held x later).symm
      · intro bounds
        cases bounds with
        | past past => exact absurd past (by omega)
        | option fits next =>
          have held := kept.mpr fits
          exact ⟨held, (next _ ((goes _).mp ⟨go, rfl⟩)).congr (frame held)⟩
    next stops =>
      refine ⟨_, _, rfl, ?_⟩
      rw [List.forall_mem_singleton]
      have none : ∀ q, ¬ GoesOn h mem limit dst p q := fun q on => stops ((goes q).mpr on).1
      constructor
      · exact fun held => .option (kept.mp held) fun q on => absurd on (none q)
      · intro bounds
        cases bounds with
        | past past => exact absurd past (by omega)
        | option fits _ => exact kept.mpr fits

end

/-- The walk ends for every header, and every option is kept exactly when the options up to the end
    of the count are in bounds. -/
theorem ip_dooptions_kept_iff (h : Hosts) (mem : Memory) (hlen ip_len : Nat) (src dst : UInt32)
    (some : 20 < hlen) (short : hlen ≤ 60) (whole : hlen ≤ ip_len) :
    ∃ visits last, ip_dooptions h mem ip_len src dst = Option.some (visits, last) ∧
      ((∀ v ∈ visits, Kept v.2.1 hlen v.1 v.2.2) ↔ InBounds h mem hlen (4 * ip_len + 16) dst 20) := by
  have count : (4 * ip_len : Int) - 4 = ((4 * ip_len + 16 : Nat) : Int) - (20 : Nat) := by omega
  rw [ip_dooptions, count]
  exact optionLoop_kept (Nat.le_refl 20) (by omega) (by omega) short (by omega)

def finder : Hosts :=
  ⟨false, some, some, some, some, some, fun _ => 0⟩

def routeOption : Memory := fun x => if x = 20 ∨ x = 21 then 7 else if x = 22 then 4 else 0

theorem recorded_kept : ∃ visits last, ip_dooptions finder routeOption 28 0 0 = some (visits, last) ∧
    visits.map (fun v => v.2.2.handler) = [.record, .eol] ∧ ∀ v ∈ visits, Kept v.2.1 28 v.1 v.2.2 := by
  obtain ⟨visits, last, runs, kept⟩ := ip_dooptions_kept_iff finder routeOption 28 28 0 0
    (by decide) (by decide) (by decide)
  have handlers : (ip_dooptions finder routeOption 28 0 0).map (fun r => r.1.map fun v => v.2.2.handler) =
      some [.record, .eol] := by decide
  rw [runs] at handlers
  refine ⟨visits, last, runs, Option.some.inj handlers,
    kept.mpr (.option ⟨by decide, fun _ _ => ⟨by decide, fun _ => ?_⟩⟩ ?_)⟩
  · exact ⟨fun _ => ⟨by decide, fun _ _ _ _ => by decide⟩, fun stamp => absurd stamp (by decide),
      fun route => absurd route (by decide)⟩
  · rintro q (⟨nop, _⟩ | ⟨_, _, rfl, _⟩ | ⟨stamp, _⟩)
    · exact absurd nop (by decide)
    · refine .option ⟨by decide, fun more => absurd rfl more⟩ ?_
      rintro q (⟨nop, _⟩ | ⟨record, _⟩ | ⟨stamp, _⟩)
      · exact absurd nop (by decide)
      · exact absurd record (by decide)
      · exact absurd stamp (by decide)
    · exact absurd stamp (by decide)

def shortRecord : Memory := fun x => if x = 20 then 7 else if x = 21 then 3 else if x = 22 then 4 else 0

/-- The address goes past the option and past the header. -/
theorem short_record_overruns : ∃ visits last, ip_dooptions finder shortRecord 24 0 0 = some (visits, last) ∧
    ¬ ∀ v ∈ visits, Kept v.2.1 24 v.1 v.2.2 := by
  obtain ⟨visits, last, runs, right⟩ := @optionLoop_kept finder shortRecord 24 112 20 0 0 97
    (by decide) (by decide) (by decide) (by decide) (by decide)
  refine ⟨visits, last, runs, fun kept => ?_⟩
  cases right.mp kept with
  | past reached => exact absurd reached (by decide)
  | option fits _ =>
    have record := ((fits.2 (by decide) (by decide)).2 ⟨by decide, by decide, by decide⟩).1 (by decide)
    exact absurd (record.2 (by decide) (by decide) (by decide) ⟨rfl, rfl⟩).1 (by decide)

end Embryo.Inet
