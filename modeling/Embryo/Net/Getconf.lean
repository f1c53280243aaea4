import Embryo.Machine.Bytes
import Embryo.Machine.CString
import Embryo.Machine.Word

namespace Embryo.Net

open Embryo.Machine

def ifnamesz : Nat := 16
def sizeofSockaddr : Nat := 16
def sizeofIfreq : Nat := 32

/-- What `if_getconf` reads of an `ifnet`: the bytes of `if_xname`, and of each address from `sa_len` on. -/
structure Interface where
  ifXname : Memory
  ifAddrlist : List Memory

def saLen (sa : Memory) : Nat := (sa 0).toNat

/-- A sum of the sizing pass, which cuts off what an `ulong` does not hold. -/
def sizeAddr (space : Nat) (sa : Memory) : Nat :=
  let space := if saLen sa > sizeofSockaddr then wrap (space + (saLen sa - sizeofSockaddr)) else space
  wrap (space + sizeofIfreq)

def sizeIfs (ifs : List Interface) : Nat :=
  ifs.foldl (fun space ifp => if ifp.ifAddrlist = [] then wrap (space + sizeofIfreq)
    else ifp.ifAddrlist.foldl sizeAddr space) 0

/-- The variables of the filling pass. The buffer is `mem`, with `ifrp` as a place in it, and
    `writes` are the places written to with the numbers of bytes. -/
structure Filling where
  ifrp : Nat
  space : Nat
  mem : Memory
  writes : List (Nat × Nat)

def Filling.copyout (f : Filling) (place : Nat) (data : List UInt8) : Filling :=
  { f with mem := write f.mem place data, writes := f.writes ++ [(place, data.length)] }

def putAddr (f : Filling) (ifXname sa : Memory) : Filling × Bool :=
  if f.space < sizeofIfreq then (f, true)
  else
    let f := f.copyout f.ifrp (bytes ifXname 0 ifnamesz)
    if saLen sa > sizeofSockaddr then
      if wsub f.space (saLen sa - sizeofSockaddr) < sizeofIfreq then (f, true)
      else
        let f := f.copyout (f.ifrp + ifnamesz) (bytes sa 0 (saLen sa))
        let space := wsub f.space (saLen sa - sizeofSockaddr)
        ({ f with ifrp := f.ifrp + ifnamesz + saLen sa, space := wsub space sizeofIfreq }, false)
    else
      let f := f.copyout (f.ifrp + ifnamesz) (bytes sa 0 (saLen sa))
      ({ f with ifrp := f.ifrp + sizeofIfreq, space := wsub f.space sizeofIfreq }, false)

def putAddrs (ifXname : Memory) : List Memory → Filling → Filling × Bool
  | [], f => (f, false)
  | sa :: rest, f =>
    match putAddr f ifXname sa with
    | (f, true) => (f, true)
    | (f, false) => putAddrs ifXname rest f

def fillIfs : List Interface → Filling → Filling
  | [], f => f
  | ifp :: rest, f =>
    if f.space < sizeofIfreq then f
    else if ifp.ifAddrlist = [] then
      let f := f.copyout (f.ifrp + ifnamesz) (List.replicate sizeofSockaddr 0)
      fillIfs rest { f with ifrp := f.ifrp + sizeofIfreq, space := wsub f.space sizeofIfreq }
    else
      match putAddrs ifp.ifXname ifp.ifAddrlist f with
      | (f, true) => f
      | (f, false) => fillIfs rest f

/-- What `if_getconf` leaves: `ifc_len`, the buffer, and where it has written to it. -/
structure Conf where
  ifcLen : Nat
  mem : Memory
  writes : List (Nat × Nat)

def ifGetconf (ifs : List Interface) (ifcLen : Nat) (mem : Memory) : Conf :=
  if ifcLen = 0 then ⟨sizeIfs ifs, mem, []⟩
  else
    let f := fillIfs ifs ⟨0, ifcLen, mem, []⟩
    ⟨wsub ifcLen f.space, f.mem, f.writes⟩

def sdlLen (namelen addrlen : Nat) : UInt8 :=
  let socklen := 7 + namelen + addrlen
  let socklen := if socklen < 20 then 20 else socklen
  UInt8.ofNat ((socklen + 3) / 4 * 4)

structure Record where
  name : Memory
  sa : Memory

def Record.size (r : Record) : Nat := sizeofIfreq + (saLen r.sa - sizeofSockaddr)

def sizes (l : List Record) : Nat := (l.map Record.size).sum

def records (ifs : List Interface) : List Record :=
  ifs.flatMap fun ifp => ifp.ifAddrlist.map fun sa => ⟨ifp.ifXname, sa⟩

def Shows (mem : Memory) : Nat → List Record → Prop
  | _, [] => True
  | place, r :: rest => bytes mem place ifnamesz = bytes r.name 0 ifnamesz ∧
      bytes mem (place + ifnamesz) (saLen r.sa) = bytes r.sa 0 (saLen r.sa) ∧ Shows mem (place + r.size) rest

/-- A call writes to the first `ifc_len` bytes only, and reports the complete records it has
    written, the first of the list. -/
def Fills (ifs : List Interface) (ifcLen : Nat) (mem : Memory) : Prop :=
  (∀ w ∈ (ifGetconf ifs ifcLen mem).writes, w.1 + w.2 ≤ ifcLen) ∧
    ∃ k, (ifGetconf ifs ifcLen mem).ifcLen = sizes ((records ifs).take k) ∧
      Shows (ifGetconf ifs ifcLen mem).mem 0 ((records ifs).take k)

/-- The length reported first is what a call with that length fills, and a call with any length
    fills no more than it. -/
def Answers (ifs : List Interface) (mem : Memory) : Prop :=
  (ifGetconf ifs (ifGetconf ifs 0 mem).ifcLen mem).ifcLen = (ifGetconf ifs 0 mem).ifcLen ∧
    ∀ ifcLen, ifcLen ≠ 0 → ifcLen < 2^32 → Fills ifs ifcLen mem

section

variable {ifs : List Interface} {f : Filling} {r : Record} {l : List Record} {mem : Memory} {limit : Nat}

theorem saLen_lt (sa : Memory) : saLen sa < 256 := (sa 0).toNat_lt

theorem sizeAddr_eq (space : Nat) (sa : Memory) (name : Memory) :
    sizeAddr (wrap space) sa = wrap (space + Record.size ⟨name, sa⟩) := by
  unfold sizeAddr Record.size
  simp only
  split
  · rw [wrap_add, Nat.add_assoc, wrap_add]
    congr 1
    omega
  · rw [wrap_add]
    congr 1
    omega

theorem sizeAddrs_eq (addrs : List Memory) (name : Memory) (space : Nat) :
    addrs.foldl sizeAddr (wrap space) = wrap (space + sizes (addrs.map fun sa => ⟨name, sa⟩)) := by
  induction addrs generalizing space with
  | nil => rfl
  | cons sa rest ih =>
    rw [List.foldl_cons, sizeAddr_eq space sa name, ih, Nat.add_assoc]
    rfl

theorem sizes_append (l l' : List Record) : sizes (l ++ l') = sizes l + sizes l' := by
  rw [sizes, List.map_append, List.sum_append]
  rfl

theorem sizeIfs_eq (addressed : ∀ ifp ∈ ifs, ifp.ifAddrlist ≠ []) (total : sizes (records ifs) < 2^32) :
    sizeIfs ifs = sizes (records ifs) := by
  have walk : ∀ space, ifs.foldl (fun space ifp => if ifp.ifAddrlist = [] then wrap (space + sizeofIfreq)
      else ifp.ifAddrlist.foldl sizeAddr space) (wrap space) = wrap (space + sizes (records ifs)) := by
    clear total
    induction ifs with
    | nil => exact fun _ => rfl
    | cons ifp rest ih =>
      intro space
      rw [List.foldl_cons, if_neg (addressed ifp List.mem_cons_self), sizeAddrs_eq ifp.ifAddrlist ifp.ifXname,
        ih fun other member => addressed other (List.mem_cons_of_mem ifp member), records, records,
          List.flatMap_cons,
        sizes_append, Nat.add_assoc]
  have whole := walk 0
  rwa [Nat.zero_add, wrap_of_lt total] at whole

def putRecords : List Record → Filling → Filling × Bool
  | [], f => (f, false)
  | r :: rest, f =>
    match putAddr f r.name r.sa with
    | (f, true) => (f, true)
    | (f, false) => putRecords rest f

theorem putRecords_append (l l' : List Record) (f : Filling) : putRecords (l ++ l') f =
    match putRecords l f with
    | (f, true) => (f, true)
    | (f, false) => putRecords l' f := by
  induction l generalizing f with
  | nil => rfl
  | cons r rest ih =>
    rw [List.cons_append, putRecords, putRecords]
    rcases putAddr f r.name r.sa with ⟨f', _ | _⟩
    · exact ih f'
    · rfl

theorem putAddrs_eq (name : Memory) (addrs : List Memory) (f : Filling) :
    putAddrs name addrs f = putRecords (addrs.map fun sa => ⟨name, sa⟩) f := by
  induction addrs generalizing f with
  | nil => rfl
  | cons sa rest ih =>
    rw [putAddrs, List.map_cons, putRecords]
    rcases putAddr f name sa with ⟨f', _ | _⟩
    · exact ih f'
    · rfl

theorem putRecords_stuck (l : List Record) (full : f.space < sizeofIfreq) : (putRecords l f).1 = f := by
  cases l with
  | nil => rfl
  | cons r rest => rw [putRecords, putAddr, if_pos full]

theorem fillIfs_eq (addressed : ∀ ifp ∈ ifs, ifp.ifAddrlist ≠ []) (f : Filling) :
    fillIfs ifs f = (putRecords (records ifs) f).1 := by
  induction ifs generalizing f with
  | nil => rfl
  | cons ifp rest ih =>
    by_cases full : f.space < sizeofIfreq
    · rw [fillIfs, if_pos full, putRecords_stuck _ full]
    · rw [fillIfs, if_neg full, if_neg (addressed ifp List.mem_cons_self), putAddrs_eq, records,
        List.flatMap_cons,
        putRecords_append]
      rcases putRecords (ifp.ifAddrlist.map fun sa => ⟨ifp.ifXname, sa⟩) f with ⟨f', _ | _⟩
      · exact ih (fun other member => addressed other (List.mem_cons_of_mem ifp member)) f'
      · rfl

/-- What a pass leaves alone: the bytes before `ifrp`, and the list of the places written to. -/
structure Later (f f' : Filling) : Prop where
  before : ∀ x < f.ifrp, f'.mem x = f.mem x
  writes : ∀ w ∈ f.writes, w ∈ f'.writes

theorem Later.trans {f' f'' : Filling} (first : Later f f') (second : Later f' f'')
    (onward : f.ifrp ≤ f'.ifrp) : Later f f'' :=
  ⟨fun x less => (second.before x (by omega)).trans (first.before x less), fun w held =>
    second.writes w (first.writes w held)⟩

theorem Later.copyout (f : Filling) {place : Nat} (onward : f.ifrp ≤ place) (data : List UInt8) :
    Later f (f.copyout place data) :=
  ⟨fun x less => write_outside (by omega), fun w held => List.mem_append_left _ held⟩

theorem putAddr_later (f : Filling) (name sa : Memory) :
    Later f (putAddr f name sa).1 ∧ f.ifrp ≤ (putAddr f name sa).1.ifrp := by
  have first := Later.copyout f (Nat.le_refl f.ifrp) (bytes name 0 ifnamesz)
  have second := Later.copyout (f.copyout f.ifrp (bytes name 0 ifnamesz)) (Nat.le_add_right f.ifrp ifnamesz)
    (bytes sa 0 (saLen sa))
  have both := first.trans second (Nat.le_refl f.ifrp)
  unfold putAddr
  split
  · exact ⟨⟨fun _ _ => rfl, fun _ held => held⟩, Nat.le_refl _⟩
  · simp only
    split
    · split
      · exact ⟨first, Nat.le_refl _⟩
      · exact ⟨⟨both.before, both.writes⟩, (Nat.le_add_right _ _).trans (Nat.le_add_right _ _)⟩
    · exact ⟨⟨both.before, both.writes⟩, Nat.le_add_right f.ifrp sizeofIfreq⟩

theorem putRecords_later (l : List Record) (f : Filling) : Later f (putRecords l f).1 := by
  induction l generalizing f with
  | nil => exact ⟨fun _ _ => rfl, fun _ held => held⟩
  | cons r rest ih =>
    obtain ⟨kept, onward⟩ := putAddr_later f r.name r.sa
    rw [putRecords]
    generalize putAddr f r.name r.sa = out at kept onward ⊢
    rcases out with ⟨f', _ | _⟩
    · exact kept.trans (ih f') onward
    · exact kept

theorem Record.size_cases (r : Record) :
    saLen r.sa ≤ sizeofSockaddr ∧ r.size = sizeofIfreq ∨ sizeofSockaddr < saLen r.sa ∧
      r.size = ifnamesz + saLen r.sa := by
  unfold Record.size sizeofIfreq sizeofSockaddr ifnamesz
  omega

theorem putAddr_fits (fits : r.size ≤ f.space) (small : f.space < 2^32) :
    ∃ f', putAddr f r.name r.sa = (f', false) ∧ f'.ifrp = f.ifrp + r.size ∧ f'.space = f.space - r.size ∧
      bytes f'.mem f.ifrp ifnamesz = bytes r.name 0 ifnamesz ∧
      bytes f'.mem (f.ifrp + ifnamesz) (saLen r.sa) = bytes r.sa 0 (saLen r.sa) ∧
      ∀ w ∈ f'.writes, w ∈ f.writes ∨ w.1 + w.2 ≤ f.ifrp + r.size := by
  let g := (f.copyout f.ifrp (bytes r.name 0 ifnamesz)).copyout (f.ifrp + ifnamesz)
    (bytes r.sa 0 (saLen r.sa))
  have name : bytes g.mem f.ifrp ifnamesz = bytes r.name 0 ifnamesz := by
    have first := bytes_write f.mem f.ifrp (bytes r.name 0 ifnamesz)
    rw [bytes_length] at first
    rw [← first]
    exact bytes_congr fun x low high => write_outside (by omega)
  have addr : bytes g.mem (f.ifrp + ifnamesz) (saLen r.sa) = bytes r.sa 0 (saLen r.sa) := by
    have second := bytes_write (f.copyout f.ifrp (bytes r.name 0 ifnamesz)).mem (f.ifrp + ifnamesz)
      (bytes r.sa 0 (saLen r.sa))
    rwa [bytes_length] at second
  have cases := r.size_cases
  have sizes : sizeofIfreq = 32 ∧ sizeofSockaddr = 16 ∧ ifnamesz = 16 := ⟨rfl, rfl, rfl⟩
  have within : ∀ w ∈ g.writes, w ∈ f.writes ∨ w.1 + w.2 ≤ f.ifrp + r.size := by
    intro w held
    rcases List.mem_append.mp held with held | last
    · rcases List.mem_append.mp held with old | first
      · exact .inl old
      · rw [List.mem_singleton.mp first, bytes_length]
        exact .inr (by simp only; omega)
    · rw [List.mem_singleton.mp last, bytes_length]
      exact .inr (by simp only; omega)
  unfold putAddr
  rw [if_neg (by omega)]
  simp only
  rcases cases with ⟨short, size⟩ | ⟨long, size⟩
  · rw [if_neg (by omega)]
    refine ⟨_, rfl, congrArg (f.ifrp + ·) size.symm, ?_, name, addr, within⟩
    show wsub f.space sizeofIfreq = _
    rw [wsub_of_le (by omega) small, size]
  · have left : wsub (f.copyout f.ifrp (bytes r.name 0 ifnamesz)).space (saLen r.sa - sizeofSockaddr) =
        f.space - (saLen r.sa - sizeofSockaddr) :=
          wsub_of_le (show saLen r.sa - sizeofSockaddr ≤ f.space by omega) small
    rw [if_pos long, left, if_neg (by omega)]
    refine ⟨_, rfl, by simp only [size, Nat.add_assoc]; rfl, ?_, name, addr, within⟩
    show wsub (wsub f.space (saLen r.sa - sizeofSockaddr)) sizeofIfreq = _
    rw [wsub_of_le (by omega) small, wsub_of_le (by omega) (by omega)]
    omega

theorem putAddr_full (full : f.space < r.size) (short : saLen r.sa ≤ sizeofSockaddr + sizeofIfreq)
    (small : f.space < 2^32) :
    ∃ f', putAddr f r.name r.sa = (f', true) ∧ f'.space = f.space ∧
      ∀ w ∈ f'.writes, w ∈ f.writes ∨ w.1 + w.2 ≤ f.ifrp + f.space := by
  have cases := r.size_cases
  have sizes : sizeofIfreq = 32 ∧ sizeofSockaddr = 16 ∧ ifnamesz = 16 := ⟨rfl, rfl, rfl⟩
  unfold putAddr
  by_cases less : f.space < sizeofIfreq
  · rw [if_pos less]
    exact ⟨f, rfl, rfl, fun w held => .inl held⟩
  · have left : wsub (f.copyout f.ifrp (bytes r.name 0 ifnamesz)).space (saLen r.sa - sizeofSockaddr) =
        f.space - (saLen r.sa - sizeofSockaddr) :=
          wsub_of_le (show saLen r.sa - sizeofSockaddr ≤ f.space by omega) small
    rw [if_neg less]
    simp only
    rw [if_pos (by omega), left, if_pos (by omega)]
    refine ⟨_, rfl, rfl, ?_⟩
    intro w held
    rcases List.mem_append.mp held with old | first
    · exact .inl old
    · rw [List.mem_singleton.mp first, bytes_length]
      exact .inr (by simp only; omega)

theorem putAddr_overflows (room : sizeofIfreq ≤ f.space) (long : f.space < saLen r.sa - sizeofSockaddr) :
    ∃ w ∈ (putAddr f r.name r.sa).1.writes, f.ifrp + f.space < w.1 + w.2 := by
  have sizes : sizeofIfreq = 32 ∧ sizeofSockaddr = 16 ∧ ifnamesz = 16 := ⟨rfl, rfl, rfl⟩
  have most := saLen_lt r.sa
  have wrapped : ¬ wsub (f.copyout f.ifrp (bytes r.name 0 ifnamesz)).space
      (saLen r.sa - sizeofSockaddr) < sizeofIfreq := by
    show ¬ wsub f.space (saLen r.sa - sizeofSockaddr) < sizeofIfreq
    simp only [wsub, wrap]
    omega
  unfold putAddr
  rw [if_neg (by omega)]
  simp only
  rw [if_pos (by omega), if_neg wrapped]
  refine ⟨(f.ifrp + ifnamesz, saLen r.sa), ?_, by simp only; omega⟩
  apply List.mem_append_right
  rw [bytes_length]
  exact List.mem_singleton_self _

theorem sizes_cons (r : Record) (l : List Record) : sizes (r :: l) = r.size + sizes l := List.sum_cons

theorem putRecords_fit (fit : sizes l ≤ f.space) (small : f.space < 2^32) :
    ∃ f', putRecords l f = (f', false) ∧ f'.ifrp = f.ifrp + sizes l ∧ f'.space = f.space - sizes l := by
  induction l generalizing f with
  | nil => exact ⟨f, rfl, rfl, rfl⟩
  | cons r rest ih =>
    rw [sizes_cons] at fit ⊢
    obtain ⟨f', put, place, left, _⟩ := putAddr_fits (r := r) (by omega) small
    obtain ⟨f'', done, place', left'⟩ := ih (f := f') (by omega) (by omega)
    rw [putRecords, put]
    exact ⟨f'', done, by omega, by omega⟩

/-- The pass ends with the records that fit, where nothing is written behind the limit, if the
    addresses are short or all records fit. -/
theorem putRecords_fills (enough : (∀ r ∈ l, saLen r.sa ≤ sizeofSockaddr + sizeofIfreq) ∨ sizes l ≤ f.space)
    (bound : f.ifrp + f.space = limit) (small : f.space < 2^32) (within : ∀ w ∈ f.writes, w.1 + w.2 ≤ limit) :
    ∃ k, (putRecords l f).1.space + sizes (l.take k) = f.space ∧
      Shows (putRecords l f).1.mem f.ifrp (l.take k) ∧
      (∀ w ∈ (putRecords l f).1.writes, w.1 + w.2 ≤ limit) ∧
        (sizes l ≤ f.space → sizes (l.take k) = sizes l) := by
  induction l generalizing f with
  | nil => exact ⟨0, rfl, True.intro, within, fun _ => rfl⟩
  | cons r rest ih =>
    rw [sizes_cons] at enough ⊢
    by_cases fits : r.size ≤ f.space
    · obtain ⟨f', put, place, left, name, addr, writes⟩ := putAddr_fits fits small
      have enough' : (∀ r ∈ rest, saLen r.sa ≤ sizeofSockaddr + sizeofIfreq) ∨ sizes rest ≤ f'.space := by
        rcases enough with short | fit
        · exact .inl fun other member => short other (List.mem_cons_of_mem r member)
        · exact .inr (by omega)
      have within' : ∀ w ∈ f'.writes, w.1 + w.2 ≤ limit := by
        intro w held
        rcases writes w held with old | new
        · exact within w old
        · omega
      obtain ⟨k, space, shows, inside, all⟩ := ih enough' (by omega) (by omega) within'
      have later := putRecords_later rest f'
      have cases := r.size_cases
      have sizes : sizeofIfreq = 32 ∧ sizeofSockaddr = 16 ∧ ifnamesz = 16 := ⟨rfl, rfl, rfl⟩
      rw [putRecords, put]
      simp only
      refine ⟨k + 1, ?_, ⟨?_, ?_, ?_⟩, inside, ?_⟩
      · rw [List.take_succ_cons, sizes_cons]
        omega
      · rw [← name]
        exact bytes_congr fun x low high => later.before x (by omega)
      · rw [← addr]
        exact bytes_congr fun x low high => later.before x (by omega)
      · rwa [place] at shows
      · intro fit
        rw [List.take_succ_cons, sizes_cons, all (by omega)]
    · have short : saLen r.sa ≤ sizeofSockaddr + sizeofIfreq := by
        rcases enough with short | fit
        · exact short r List.mem_cons_self
        · omega
      obtain ⟨f', put, left, writes⟩ := putAddr_full (Nat.lt_of_not_le fits) short small
      rw [putRecords, put]
      refine ⟨0, by rw [left]; rfl, True.intro, ?_, fun fit => by omega⟩
      intro w held
      rcases writes w held with old | new
      · exact within w old
      · omega

end

theorem getconf_sizes {ifs : List Interface} (addressed : ∀ ifp ∈ ifs, ifp.ifAddrlist ≠ [])
    (total : sizes (records ifs) < 2^32)
    (mem : Memory) : (ifGetconf ifs 0 mem).ifcLen = sizes (records ifs) := sizeIfs_eq addressed total

theorem getconf_fills {ifs : List Interface} (addressed : ∀ ifp ∈ ifs, ifp.ifAddrlist ≠ [])
    {ifcLen : Nat} (some' : ifcLen ≠ 0)
    (small : ifcLen < 2^32) (mem : Memory)
    (enough : (∀ r ∈ records ifs, saLen r.sa ≤ sizeofSockaddr + sizeofIfreq) ∨ sizes (records ifs) ≤ ifcLen) :
    Fills ifs ifcLen mem ∧ (sizes (records ifs) ≤ ifcLen →
      (ifGetconf ifs ifcLen mem).ifcLen = sizes (records ifs)) := by
  obtain ⟨k, space, shows, inside, all⟩ :=
    putRecords_fills (f := ⟨0, ifcLen, mem, []⟩) enough (Nat.zero_add ifcLen) small nofun
  have run : ifGetconf ifs ifcLen mem = ⟨wsub ifcLen (putRecords (records ifs) ⟨0, ifcLen, mem, []⟩).1.space,
      (putRecords (records ifs) ⟨0, ifcLen, mem, []⟩).1.mem,
          (putRecords (records ifs) ⟨0, ifcLen, mem, []⟩).1.writes⟩ := by
    rw [ifGetconf, if_neg some', fillIfs_eq addressed]
  have space : (putRecords (records ifs) ⟨0, ifcLen, mem, []⟩).1.space +
    sizes ((records ifs).take k) = ifcLen := space
  have length : wsub ifcLen (putRecords (records ifs) ⟨0, ifcLen, mem, []⟩).1.space =
      sizes ((records ifs).take k) := by
    rw [wsub_of_le (by omega) small]
    omega
  constructor
  · rw [Fills, run]
    exact ⟨inside, k, length, shows⟩
  · intro fit
    rw [run]
    exact length.trans (all fit)

/-- The check of `if_getconf` fails where an address is longer than what is left, and then alone. -/
theorem getconf_answers_iff (ifs : List Interface) (addressed : ∀ ifp ∈ ifs, ifp.ifAddrlist ≠ [])
    (total : sizes (records ifs) < 2^32) (mem : Memory) :
    Answers ifs mem ↔ ∀ ifp ∈ ifs, ∀ sa ∈ ifp.ifAddrlist, saLen sa ≤ sizeofSockaddr + sizeofIfreq := by
  have each : (∀ r ∈ records ifs, saLen r.sa ≤ sizeofSockaddr + sizeofIfreq) ↔
      ∀ ifp ∈ ifs, ∀ sa ∈ ifp.ifAddrlist, saLen sa ≤ sizeofSockaddr + sizeofIfreq := by
    simp only [records, List.forall_mem_flatMap, List.forall_mem_map]
  rw [← each]
  constructor
  · intro ⟨_, answers⟩ r member
    by_contra long
    obtain ⟨before, after, split⟩ := List.append_of_mem member
    have bound := total
    have sizes' : sizeofIfreq = 32 ∧ sizeofSockaddr = 16 ∧ ifnamesz = 16 := ⟨rfl, rfl, rfl⟩
    have cases := r.size_cases
    rw [split, sizes_append, sizes_cons] at bound
    have fills := answers (sizes before + sizeofIfreq) (by omega) (by omega)
    -- thirty-two bytes are left when the address is reached
    obtain ⟨f, put, place, left⟩ :=
      putRecords_fit (l := before) (f := ⟨0, sizes before + sizeofIfreq, mem, []⟩) (Nat.le_add_right _ _)
        (show sizes before + sizeofIfreq < 2^32 by omega)
    simp only [Nat.zero_add, Nat.add_sub_cancel_left] at place left
    obtain ⟨w, written, beyond⟩ := putAddr_overflows (f := f) (r := r) (by omega) (by omega)
    have last : w ∈ (putRecords (r :: after) f).1.writes := by
      rw [putRecords]
      generalize putAddr f r.name r.sa = out at written ⊢
      rcases out with ⟨f', _ | _⟩
      · exact (putRecords_later after f').writes w written
      · exact written
    have run : (ifGetconf ifs (sizes before + sizeofIfreq) mem).writes =
        (putRecords (r :: after) f).1.writes := by
      rw [ifGetconf, if_neg (by omega), fillIfs_eq addressed, split, putRecords_append, put]
    have inside := fills.1 w (run ▸ last)
    omega
  · intro short
    have first := getconf_sizes addressed total mem
    refine ⟨?_, fun ifcLen some' small => (getconf_fills addressed some' small mem (.inl short)).1⟩
    rw [first]
    by_cases none : sizes (records ifs) = 0
    · rw [none] at first ⊢
      exact first
    · exact (getconf_fills addressed none total mem (.inr (Nat.le_refl _))).2 (Nat.le_refl _)

theorem sdlLen_short {namelen addrlen : Nat} (name : namelen < ifnamesz) (addr : addrlen ≤ 25) :
    (sdlLen namelen addrlen).toNat ≤ sizeofSockaddr + sizeofIfreq := by
  have sizes : sizeofIfreq = 32 ∧ sizeofSockaddr = 16 ∧ ifnamesz = 16 := ⟨rfl, rfl, rfl⟩
  unfold sdlLen
  simp only
  rw [UInt8.toNat_ofNat']
  split <;> omega

def loopback (sinLen : UInt8) : Interface where
  ifXname := fun i => [108, 111].getD i 0
  ifAddrlist := [fun i => [sdlLen 2 0, 18].getD i 0, fun i => [sinLen, 2, 0, 0, 127, 0, 0, 1].getD i 0]

theorem loopback_answered : Answers [loopback 16] fun _ => 0 :=
  (getconf_answers_iff [loopback 16] (by decide) (by decide) _).mpr (by decide)

/-- `in_control` takes any `sin_len`, and one of 200 makes the function write behind the buffer. -/
theorem long_address_overflows : ¬ Answers [loopback 200] fun _ => 0 := by
  rw [getconf_answers_iff [loopback 200] (by decide) (by decide)]
  decide

end Embryo.Net
