import Embryo.Exec.Image

namespace Embryo.Exec

open Embryo.Machine

structure Elf32Phdr where
  pType : UInt32
  pOffset : UInt32
  pVaddr : UInt32
  pFilesz : UInt32
  pMemsz : UInt32

structure Elf64Phdr where
  pType : UInt32
  pOffset : UInt64
  pVaddr : UInt64
  pFilesz : UInt64
  pMemsz : UInt64

/-- What a loader does with a segment: the range that `md_load_addr_isvalid` is asked about, what
    `read` is asked for and delivers, and what `bzero` clears. -/
inductive Action where
  | check (start stop : UInt32)
  | load (offset addr size : UInt32) (data : List UInt8)
  | clear (addr size : UInt32)
deriving DecidableEq

structure Watched (σ : Type) where
  ld : Loading σ
  actions : List Action

variable {σ P : Type}

def loadAddrIsvalid (start stop : UInt32) (w : Watched σ) : Bool × Watched σ :=
  (mdLoadAddrIsvalid start.toNat stop.toNat, { w with actions := w.actions ++ [.check start stop] })

def seekRead (fd : Fd σ) (offset addr size : UInt32) (w : Watched σ) : Bool × Watched σ :=
  match fd.lseek w.ld.file offset.toNat with
  | (false, file) => (false, { w with ld := { w.ld with file } })
  | (true, file) =>
    let (data, returned, file) := fd.read file size.toNat
    (returned = size.toNat, ⟨{ w.ld with file }.put addr.toNat data,
      w.actions ++ [.load offset addr size data]⟩)

def bzeroAt (addr size : UInt32) (w : Watched σ) : Watched σ :=
  ⟨w.ld.put addr.toNat (List.replicate size.toNat 0), w.actions ++ [.clear addr size]⟩

def lowestOf {O : Type} [LT O] [DecidableLT O] (type : P → UInt32) (offset : P → O) :
    List P → Nat → Option Nat → O → Option Nat
  | [], _, ephdr, _ => ephdr
  | p :: rest, i, ephdr, lowestOff =>
    if type p = 1 then
      if offset p < lowestOff then lowestOf type offset rest (i + 1) (some i) (offset p)
      else lowestOf type offset rest (i + 1) ephdr lowestOff
    else lowestOf type offset rest (i + 1) ephdr lowestOff

def elf32PhdrAt (mem : Memory) (a : Nat) : Elf32Phdr where
  pType := .ofNat (field mem a 4)
  pOffset := .ofNat (field mem (a + 4) 4)
  pVaddr := .ofNat (field mem (a + 8) 4)
  pFilesz := .ofNat (field mem (a + 16) 4)
  pMemsz := .ofNat (field mem (a + 20) 4)

def elf64PhdrAt (mem : Memory) (a : Nat) : Elf64Phdr where
  pType := .ofNat (field mem a 4)
  pOffset := .ofNat (field mem (a + 8) 8)
  pVaddr := .ofNat (field mem (a + 16) 8)
  pFilesz := .ofNat (field mem (a + 32) 8)
  pMemsz := .ofNat (field mem (a + 40) 8)

def elf32Chkloadaddr (p : Elf32Phdr) : Watched σ → Bool × Watched σ :=
  loadAddrIsvalid p.pVaddr (p.pVaddr + p.pMemsz)

def elf64Chkloadaddr (p : Elf64Phdr) : Watched σ → Bool × Watched σ :=
  loadAddrIsvalid p.pVaddr.toUInt32 (p.pVaddr + p.pMemsz).toUInt32

def elf32Loadseg2mem (fd : Fd σ) (p : Elf32Phdr) : Watched σ → Bool × Watched σ :=
  seekRead fd p.pOffset p.pVaddr p.pFilesz

def elf64Loadseg2mem (fd : Fd σ) (p : Elf64Phdr) : Watched σ → Bool × Watched σ :=
  seekRead fd p.pOffset.toUInt32 p.pVaddr.toUInt32 p.pFilesz.toUInt32

/-- Whether `__calc_chksum` gets through: it loads halfwords, which stops the board at an odd address. -/
def calcChksum (buf len : UInt32) : Bool := ¬ (buf.toNat % 2 = 1 ∧ 2 ≤ len.toBitVec.toInt)

def elf32Chksum (p : Elf32Phdr) : Bool := calcChksum p.pVaddr p.pFilesz

def elf64Chksum (p : Elf64Phdr) : Bool := calcChksum p.pVaddr.toUInt32 p.pFilesz.toUInt32

def elf32Clearseg (p : Elf32Phdr) (w : Watched σ) : Watched σ :=
  if p.pMemsz > p.pFilesz then bzeroAt (p.pVaddr + p.pFilesz) (p.pMemsz - p.pFilesz) w else w

def elf64Clearseg (p : Elf64Phdr) (w : Watched σ) : Watched σ :=
  if p.pMemsz > p.pFilesz then bzeroAt (p.pVaddr + p.pFilesz).toUInt32
    (p.pMemsz - p.pFilesz).toUInt32 w else w

/-- `lowest_off = ~0L`, and `~0LL` for the other class. -/
def elf32Lowest (tab : List Elf32Phdr) : Option Nat :=
  lowestOf Elf32Phdr.pType Elf32Phdr.pOffset tab 0 none (~~~0)

def elf64Lowest (tab : List Elf64Phdr) : Option Nat :=
  lowestOf Elf64Phdr.pType Elf64Phdr.pOffset tab 0 none (~~~0)

structure ElfClass (σ P : Type) where
  lay : Layout
  phdrAt : Memory → Nat → P
  lowest : List P → Option Nat
  unsized : P → Bool
  chkloadaddr : P → Watched σ → Bool × Watched σ
  loadseg2mem : P → Watched σ → Bool × Watched σ
  chksum : P → Bool
  clearseg : P → Watched σ → Watched σ
  entry : Memory → Nat → UInt32

def class32 (fd : Fd σ) : ElfClass σ Elf32Phdr where
  lay := elf32
  phdrAt := elf32PhdrAt
  lowest := elf32Lowest
  unsized p := p.pFilesz = 0
  chkloadaddr := elf32Chkloadaddr
  loadseg2mem := elf32Loadseg2mem fd
  chksum := elf32Chksum
  clearseg := elf32Clearseg
  entry mem elfhdr := .ofNat (field mem (elfhdr + 24) 4)

def class64 (fd : Fd σ) : ElfClass σ Elf64Phdr where
  lay := elf64
  phdrAt := elf64PhdrAt
  lowest := elf64Lowest
  unsized p := p.pFilesz = 0
  chkloadaddr := elf64Chkloadaddr
  loadseg2mem := elf64Loadseg2mem fd
  chksum := elf64Chksum
  clearseg := elf64Clearseg
  entry mem elfhdr := (UInt64.ofNat (field mem (elfhdr + 24) 8)).toUInt32

abbrev Verdict (σ : Type) := Option LoadRes × Option UInt32 × Watched σ

def classPass (C : ElfClass σ P) (blk : Tables) (w : Watched σ) : Pass (Watched σ) (Verdict σ) :=
  let ePhnum := field w.ld.mem (blk.elfhdr + C.lay.ePhnum) 2
  match C.lowest ((List.range ePhnum).map fun i => C.phdrAt w.ld.mem (blk.ephdr C.lay i)) with
  | none => .leave (some .success, some (C.entry w.ld.mem blk.elfhdr), w)
  | some i =>
    let ephdr := blk.ephdr C.lay i
    let p := C.phdrAt w.ld.mem ephdr
    let w := { w with ld := { w.ld with order := w.ld.order ++ [i] } }
    if C.unsized p then .again { w with ld := w.ld.retire ephdr }
    else
      match C.chkloadaddr p w with
      | (false, w) => .leave (some .loadErr, none, w)
      | (true, w) =>
        match C.loadseg2mem p w with
        | (false, w) => .leave (some .loadErr, none, w)
        | (true, w) =>
          -- the segment may have been read over its own program header
          if ¬ C.chksum (C.phdrAt w.ld.mem ephdr) then .leave (none, none, w)
          else
            let w := C.clearseg (C.phdrAt w.ld.mem ephdr) w
            .again { w with ld := w.ld.retire ephdr }

/-- `__elf32_loader` and `__elf64_loader`, cut off after `fuel` passes. -/
def classLoader (C : ElfClass σ P) (fd : Fd σ) (elfhdr ephdrtab : Option Nat) (fuel : Nat)
    (mem : Memory) (file : σ) :
    Option (Verdict σ) :=
  match openElf C.lay fd elfhdr ephdrtab mem file with
  | .error ld => some (some .loadErr, none, ⟨ld, []⟩)
  | .ok (blk, ld) => loop (fun w => some (classPass C blk w)) fuel ⟨ld, []⟩

def elf32LoaderWatched (fd : Fd σ) :
    Option Nat → Option Nat → Nat → Memory → σ → Option (Verdict σ) := classLoader (class32 fd) fd

def elf64LoaderWatched (fd : Fd σ) :
    Option Nat → Option Nat → Nat → Memory → σ → Option (Verdict σ) := classLoader (class64 fd) fd

section Numbers

def Elf32Phdr.view (p : Elf32Phdr) : Phdr :=
  ⟨p.pType.toNat, p.pOffset.toNat, p.pVaddr.toNat, p.pFilesz.toNat, p.pMemsz.toNat⟩

def Elf64Phdr.view (p : Elf64Phdr) : Phdr :=
  ⟨p.pType.toNat, p.pOffset.toNat, p.pVaddr.toNat, p.pFilesz.toNat, p.pMemsz.toNat⟩

def checkAction (p : Phdr) : Action := .check (.ofNat p.pVaddr) (.ofNat (p.pVaddr + p.pMemsz))

def loadActions (fd : Fd σ) (p : Phdr) (file : σ) : List Action :=
  match fd.lseek file (wrap p.pOffset) with
  | (false, _) => []
  | (true, file) =>
    [.load (.ofNat p.pOffset) (.ofNat p.pVaddr) (.ofNat p.pFilesz) (fd.read file (wrap p.pFilesz)).1]

def clearActions (p : Phdr) : List Action :=
  if p.pFilesz < p.pMemsz then
    [.clear (.ofNat (p.pVaddr + p.pFilesz)) (.ofNat (p.pMemsz - p.pFilesz))] else []

def Misaligned (p : Phdr) : Prop := wrap p.pVaddr % 2 = 1 ∧ 2 ≤ wrap p.pFilesz ∧ wrap p.pFilesz < 2^31

instance (p : Phdr) : Decidable (Misaligned p) := inferInstanceAs (Decidable (_ ∧ _ ∧ _))

/-- The functions of a class do with its types what is done with the numbers that these stand for. -/
structure InNumbers (C : ElfClass σ P) (fd : Fd σ) (view : P → Phdr) : Prop where
  phdrAt : ∀ mem a, view (C.phdrAt mem a) = Exec.phdrAt C.lay mem a
  lowest : ∀ tab, C.lowest tab = Exec.lowest C.lay (tab.map view)
  unsized : ∀ p, C.unsized p = decide ((view p).pFilesz = 0)
  chkloadaddr : ∀ p w, C.chkloadaddr p w =
    (decide (Exec.chkloadaddr (view p)), { w with actions := w.actions ++ [checkAction (view p)] })
  loadseg2mem : ∀ p w, C.loadseg2mem p w = ((Exec.loadseg2mem fd (view p) w.ld).1,
    ⟨(Exec.loadseg2mem fd (view p) w.ld).2, w.actions ++ loadActions fd (view p) w.ld.file⟩)
  chksum : ∀ p, C.chksum p = decide (¬ Misaligned (view p))
  clearseg : ∀ p w, C.clearseg p w = ⟨Exec.clearseg (view p) w.ld, w.actions ++ clearActions (view p)⟩
  entry : ∀ mem elfhdr, C.entry mem elfhdr = .ofNat (field mem (elfhdr + C.lay.eEntry) C.lay.word)

theorem field_lt (mem : Memory) (a n : Nat) : field mem a n < 256^n := by
  induction n generalizing a with
  | zero => exact Nat.one_pos
  | succ n ih =>
    have byte := (mem (phys a)).toNat_lt
    have rest := ih (a + 1)
    rw [field, Nat.pow_succ]
    omega

theorem field_word (mem : Memory) (a : Nat) : (UInt32.ofNat (field mem a 4)).toNat = field mem a 4 :=
  UInt32.toNat_ofNat_of_lt' (field_lt mem a 4)

theorem field_xword (mem : Memory) (a : Nat) : (UInt64.ofNat (field mem a 8)).toNat = field mem a 8 :=
  UInt64.toNat_ofNat_of_lt' (field_lt mem a 8)

theorem seekRead_eq (fd : Fd σ) {p : Phdr} {offset addr size : UInt32} (w : Watched σ)
    (isOffset : offset = .ofNat p.pOffset)
    (isAddr : addr = .ofNat p.pVaddr) (isSize : size = .ofNat p.pFilesz) :
    seekRead fd offset addr size w = ((loadseg2mem fd p w.ld).1,
      ⟨(loadseg2mem fd p w.ld).2, w.actions ++ loadActions fd p w.ld.file⟩) := by
  subst isOffset isAddr isSize
  unfold seekRead loadseg2mem loadActions
  simp only [UInt32.toNat_ofNat']
  change (match fd.lseek w.ld.file (wrap p.pOffset) with | (false, file) => _ | (true, file) => _) = _
  rcases fd.lseek w.ld.file (wrap p.pOffset) with ⟨_ | _, file⟩
  · simp
  · rfl

theorem lowestOf_eq {O : Type} [LT O] [DecidableLT O] {type : P → UInt32} {offset : P → O}
    {view : P → Phdr} {number : O → Nat}
    (types : ∀ p, (view p).pType = (type p).toNat) (offsets : ∀ p, (view p).pOffset = number (offset p))
    (order : ∀ x y : O, x < y ↔ number x < number y) (tab : List P) (i : Nat) (ephdr : Option Nat)
    (lowestOff : O) :
    lowestOf type offset tab i ephdr lowestOff = lowestFrom (tab.map view) i ephdr (number lowestOff) := by
  induction tab generalizing i ephdr lowestOff with
  | nil => rfl
  | cons p rest ih =>
    have isLoad : (view p).pType = ptLoad ↔ type p = 1 := by
      rw [types, ptLoad, ← UInt32.toNat_inj]
      rfl
    rw [lowestOf, List.map_cons, lowestFrom, offsets]
    by_cases load : type p = 1
    · rw [if_pos load]
      by_cases less : offset p < lowestOff
      · rw [if_pos less, if_pos ⟨isLoad.mpr load, (order _ _).mp less⟩, ih]
      · rw [if_neg less, if_neg fun both => less ((order _ _).mpr both.2), ih]
    · rw [if_neg load, if_neg fun both => load (isLoad.mp both.1), ih]

theorem loadAddrIsvalid_eq {p : Phdr} {start stop : UInt32} (w : Watched σ)
    (isStart : start = .ofNat p.pVaddr) (isStop : stop = .ofNat (p.pVaddr + p.pMemsz)) :
    loadAddrIsvalid start stop w = (decide (chkloadaddr p),
      { w with actions := w.actions ++ [checkAction p] }) := by
  subst isStart isStop
  unfold loadAddrIsvalid chkloadaddr checkAction
  simp only [UInt32.toNat_ofNat']
  rfl

theorem bzeroAt_eq {p : Phdr} {addr size : UInt32} (w : Watched σ) (longer : p.pFilesz < p.pMemsz)
    (isAddr : addr = .ofNat (p.pVaddr + p.pFilesz)) (isSize : size = .ofNat (p.pMemsz - p.pFilesz)) :
    bzeroAt addr size w = ⟨clearseg p w.ld, w.actions ++ clearActions p⟩ := by
  subst isAddr isSize
  unfold bzeroAt clearseg clearActions
  rw [if_pos longer, if_pos longer]
  simp only [UInt32.toNat_ofNat']
  rfl

theorem clear_none {p : Phdr} (w : Watched σ) (short : ¬ p.pFilesz < p.pMemsz) :
    w = ⟨clearseg p w.ld, w.actions ++ clearActions p⟩ := by
  unfold clearseg clearActions
  rw [if_neg short, if_neg short, List.append_nil]

theorem calcChksum_eq {p : Phdr} {buf len : UInt32} (isBuf : buf = .ofNat p.pVaddr)
    (isLen : len = .ofNat p.pFilesz) :
    calcChksum buf len = decide (¬ Misaligned p) := by
  subst isBuf isLen
  have size : (UInt32.ofNat p.pFilesz).toBitVec.toNat = wrap p.pFilesz := UInt32.toNat_ofNat'
  have signed : 2 ≤ (UInt32.ofNat p.pFilesz).toBitVec.toInt ↔ 2 ≤ wrap p.pFilesz ∧ wrap p.pFilesz < 2^31 := by
    have bound : wrap p.pFilesz < 2^32 := Nat.mod_lt _ (by decide)
    rw [BitVec.toInt_eq_toNat_cond, size]
    split <;> omega
  have odd : (UInt32.ofNat p.pVaddr).toNat % 2 = 1 ↔ wrap p.pVaddr % 2 = 1 := by
    rw [UInt32.toNat_ofNat', wrap]
  exact decide_eq_decide.mpr (not_congr (and_congr odd signed))

theorem low_half (x : UInt64) : x.toUInt32 = .ofNat x.toNat := by
  apply UInt32.toNat.inj
  rw [UInt64.toNat_toUInt32, UInt32.toNat_ofNat']

theorem class32_inNumbers (fd : Fd σ) : InNumbers (class32 fd) fd Elf32Phdr.view where
  phdrAt mem a := by simp only [class32, elf32PhdrAt, Elf32Phdr.view, Exec.phdrAt, elf32, field_word]
  lowest tab := by
    have top : (~~~(0 : UInt32)).toNat = topOff elf32 := by decide
    show elf32Lowest tab = lowestFrom (tab.map Elf32Phdr.view) 0 none (topOff elf32)
    rw [← top]
    exact @lowestOf_eq _ _ _ _ _ _ Elf32Phdr.view UInt32.toNat (fun _ => rfl) (fun _ => rfl)
      (fun _ _ => UInt32.lt_iff_toNat_lt) tab 0
      none (~~~0)
  unsized p := by
    have zero : p.pFilesz = 0 ↔ p.pFilesz.toNat = 0 := UInt32.toNat_inj.symm
    exact decide_eq_decide.mpr zero
  chkloadaddr p w := by
    apply loadAddrIsvalid_eq
    · exact UInt32.ofNat_toNat.symm
    · simp only [Elf32Phdr.view, UInt32.ofNat_add, UInt32.ofNat_toNat]
  loadseg2mem p w := by
    apply seekRead_eq <;> exact UInt32.ofNat_toNat.symm
  chksum p := by
    apply calcChksum_eq <;> exact UInt32.ofNat_toNat.symm
  clearseg p w := by
    show elf32Clearseg p w = _
    unfold elf32Clearseg
    by_cases longer : p.pFilesz < p.pMemsz
    · rw [if_pos longer]
      apply bzeroAt_eq w (UInt32.lt_iff_toNat_lt.mp longer)
      · simp only [Elf32Phdr.view, UInt32.ofNat_add, UInt32.ofNat_toNat]
      · have le : p.pFilesz ≤ p.pMemsz := UInt32.le_of_lt longer
        rw [Elf32Phdr.view, ← UInt32.toNat_sub_of_le _ _ le, UInt32.ofNat_toNat]
    · rw [if_neg longer]
      exact clear_none w fun less => longer (UInt32.lt_iff_toNat_lt.mpr less)
  entry mem elfhdr := rfl

theorem class64_inNumbers (fd : Fd σ) : InNumbers (class64 fd) fd Elf64Phdr.view where
  phdrAt mem a := by
    simp only [class64, elf64PhdrAt, Elf64Phdr.view, Exec.phdrAt, elf64, field_word, field_xword]
  lowest tab := by
    have top : (~~~(0 : UInt64)).toNat = topOff elf64 := by decide
    show elf64Lowest tab = lowestFrom (tab.map Elf64Phdr.view) 0 none (topOff elf64)
    rw [← top]
    exact @lowestOf_eq _ _ _ _ _ _ Elf64Phdr.view UInt64.toNat (fun _ => rfl) (fun _ => rfl)
      (fun _ _ => UInt64.lt_iff_toNat_lt) tab 0
      none (~~~0)
  unsized p := by
    have zero : p.pFilesz = 0 ↔ p.pFilesz.toNat = 0 := UInt64.toNat_inj.symm
    exact decide_eq_decide.mpr zero
  chkloadaddr p w := by
    apply loadAddrIsvalid_eq
    · exact low_half _
    · apply UInt32.toNat.inj
      rw [UInt64.toNat_toUInt32, UInt64.toNat_add, UInt32.toNat_ofNat']
      -- the carry out of 64 bits is one out of 32
      exact Nat.mod_mod_of_dvd _ (by decide)
  loadseg2mem p w := by
    apply seekRead_eq <;> exact low_half _
  chksum p := by
    apply calcChksum_eq <;> exact low_half _
  clearseg p w := by
    show elf64Clearseg p w = _
    unfold elf64Clearseg
    by_cases longer : p.pFilesz < p.pMemsz
    · rw [if_pos longer]
      apply bzeroAt_eq w (UInt64.lt_iff_toNat_lt.mp longer)
      · apply UInt32.toNat.inj
        rw [UInt64.toNat_toUInt32, UInt64.toNat_add, UInt32.toNat_ofNat']
        exact Nat.mod_mod_of_dvd _ (by decide)
      · have le : p.pFilesz ≤ p.pMemsz := UInt64.le_of_lt longer
        rw [low_half, UInt64.toNat_sub_of_le _ _ le]
        rfl
    · rw [if_neg longer]
      exact clear_none w fun less => longer (UInt64.lt_iff_toNat_lt.mpr less)
  entry mem elfhdr := by
    rw [class64]
    dsimp only
    rw [low_half, field_xword]
    rfl

end Numbers

end Embryo.Exec
