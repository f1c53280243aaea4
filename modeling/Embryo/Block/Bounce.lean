import Embryo.Block.File
import Embryo.Machine.Word

namespace Embryo.Block.Bounced

open Embryo.Machine

/-- `kmem_malloc`, by the block it gives for a size; a block ends within the address space. -/
structure Kmalloc where
  give : Nat → Option Nat
  inside : ∀ size a, give size = some a → 0 < a ∧ a + size ≤ 2^32

/-- `__alloc_llbuf_aligned`: the buffer, and the block it lies in. -/
def allocLlbufAligned (kmem : Kmalloc) (blksz : Nat) : Option (Nat × Nat) :=
  match kmem.give (2 * blksz) with
  | none => none
  | some raw => some (wrap (raw + blksz - 1) / blksz * blksz, raw)

/-- The variables of `blkfile_xfer`, with `llbuf` and `__raw_llbuf`. The last two fields record the
    blocks that `kmem_malloc` has given and those that have gone to `kmem_free`. -/
structure Bounce where
  x : Xfer
  llbuf : Nat
  raw : Nat
  taken : List Nat
  freed : List Nat

namespace Bounce

/-- `!llbuf && !(llbuf = __alloc_llbuf_aligned(...))`, and whether there is a buffer then. -/
def ready (t : Bounce) (kmem : Kmalloc) (blksz : Nat) : Bool × Bounce :=
  if t.llbuf ≠ 0 then (true, t)
  else
    match allocLlbufAligned kmem blksz with
    | none => (false, t)
    | some (llbuf, raw) => (llbuf ≠ 0, { t with llbuf, raw, taken := raw :: t.taken })

def release (t : Bounce) : Bounce := if t.llbuf ≠ 0 then { t with freed := t.raw :: t.freed } else t

/-- The transfer goes on, or it ends by way of the label `err`. -/
def follow (t : Bounce) : Pass Xfer (Bool × Xfer) → Pass Bounce (Bool × Bounce)
  | .again x => .again { t with x }
  | .leave (ok, x) => .leave (ok, { t with x }.release)

end Bounce

def xferPass (dev : BlockDevice) (kmem : Kmalloc) (data : Option (List UInt8)) (t : Bounce) :
    Option (Pass Bounce (Bool × Bounce)) :=
  if t.x.resid = 0 then some (.leave (true, t.release))
  else if t.x.offs % dev.blkSz ≠ 0 ∨ t.x.resid < dev.blkSz then
    match t.ready kmem dev.blkSz with
    | (false, t) => some (.leave (false, t))
    | (true, t) => some (t.follow (xferPart dev true data t.x))
  else some (t.follow (xferWhole dev data t.x))

/-- What a call leaves: the count it returns, which is nothing for -1, the bytes delivered, the
    file, and the blocks it was given and those it has freed. -/
structure Done where
  count : Option Nat
  buf : List UInt8
  bf : BlockFile
  taken : List Nat
  freed : List Nat

def blkfileXfer (dev : BlockDevice) (kmem : Kmalloc) (bf : BlockFile) (nb : Nat)
    (data : Option (List UInt8)) : Option Done :=
  match loop (xferPass dev kmem data) (nb + 1) ⟨⟨bf.bfOffs.toNat, nb, bf.disk, false, []⟩, 0, 0, [], []⟩ with
  | none => none
  | some (ok, t) =>
    some ⟨if ok then some (nb - t.x.resid) else none, t.x.buf,
      { bf with bfOffs := t.x.offs, disk := t.x.disk }, t.taken, t.freed⟩

def blkfileRead (priv : Option BlockDevice) (kmem : Kmalloc) (bf : BlockFile) (len : Nat) : Option Done :=
  if bf.oflags = .wronly then some ⟨none, [], bf, [], []⟩
  else
    match priv with
    | none => some ⟨none, [], bf, [], []⟩
    | some dev =>
      if bf.bfOffs < 0 ∨ bf.bfOffs > bf.bfEnd then some ⟨some 0, [], bf, [], []⟩
      else blkfileXfer dev kmem bf (bf.clipped len) none

def blkfileWrite (priv : Option BlockDevice) (kmem : Kmalloc) (bf : BlockFile) (data : List UInt8) :
    Option Done :=
  if bf.oflags = .rdonly then some ⟨none, [], bf, [], []⟩
  else
    match priv with
    | none => some ⟨none, [], bf, [], []⟩
    | some dev =>
      if bf.bfOffs < 0 ∨ bf.bfOffs > bf.bfEnd then some ⟨some 0, [], bf, [], []⟩
      else blkfileXfer dev kmem bf (bf.clipped data.length) (some (data.take (bf.clipped data.length)))

def chunk (dev : BlockDevice) (offs resid : Nat) : Nat :=
  if offs % dev.blkSz ≠ 0 ∨ resid < dev.blkSz then min (dev.blkSz - offs % dev.blkSz) resid
  else min (resid / dev.blkSz * dev.blkSz) blkfileMaxIoBytes

def accepted : Bool × Memory → Option Memory
  | (true, disk) => some disk
  | (false, _) => none

/-- The contents of the device after the block operations for the next chunk, or nothing where one
    of them fails. -/
def serve (dev : BlockDevice) (buffered : Bool) (data : Option (List UInt8)) (disk : Memory)
    (offs resid : Nat) : Option Memory :=
  let n := chunk dev offs resid
  if offs % dev.blkSz ≠ 0 ∨ resid < dev.blkSz then
    if ¬ buffered then none
    else
      match dev.boRead disk (offs / dev.blkSz) 1 with
      | none => none
      | some llbuf =>
        match data with
        | none => some disk
        | some data =>
          accepted (dev.boWrite disk (offs / dev.blkSz) 1
            (splice llbuf (offs % dev.blkSz) ((data.drop (data.length - resid)).take n)))
  else
    match data with
    | none => (dev.boRead disk (offs / dev.blkSz) (n / dev.blkSz)).map fun _ => disk
    | some data =>
      accepted (dev.boWrite disk (offs / dev.blkSz) (n / dev.blkSz)
        ((data.drop (data.length - resid)).take n))

inductive Served (dev : BlockDevice) (buffered : Bool) (data : Option (List UInt8)) :
    Memory → Nat → Nat → Prop
  | done (disk : Memory) (offs : Nat) : Served dev buffered data disk offs 0
  | chunk {disk disk' : Memory} {offs resid : Nat} (more : resid ≠ 0)
      (first : serve dev buffered data disk offs resid = some disk')
      (rest : Served dev buffered data disk' (offs + chunk dev offs resid) (resid - chunk dev offs resid)) :
      Served dev buffered data disk offs resid

def Unmoved (bf : BlockFile) (result : Option Done) : Prop :=
  ∃ d, result = some d ∧ (d.count = none → d.bf.bfOffs = bf.bfOffs) ∧ d.freed = d.taken ∧ d.taken.length ≤ 1

/-- No block operation of a transfer fails, or none of a later chunk than the first is reached. -/
def Whole (dev : BlockDevice) (kmem : Kmalloc) (bf : BlockFile) (nb : Nat)
    (data : Option (List UInt8)) : Prop :=
  Served dev (kmem.give (2 * dev.blkSz)).isSome data bf.disk bf.bfOffs.toNat nb ∨
    serve dev (kmem.give (2 * dev.blkSz)).isSome data bf.disk bf.bfOffs.toNat nb = none

variable {dev : BlockDevice} {kmem : Kmalloc} {data : Option (List UInt8)} {t : Bounce} {offs resid : Nat}

theorem chunk_pos (more : resid ≠ 0) : 0 < chunk dev offs resid := by
  have positive : 0 < dev.blkSz := Nat.pow_pos (by decide)
  have less : offs % dev.blkSz < dev.blkSz := Nat.mod_lt _ positive
  unfold chunk
  split
  · omega
  · next aligned =>
    have blocks : 0 < resid / dev.blkSz := Nat.div_pos (by omega) positive
    exact Nat.lt_min.mpr ⟨Nat.mul_pos blocks positive, by decide⟩

theorem aligned_inside {llbuf raw : Nat} (given : allocLlbufAligned kmem dev.blkSz = some (llbuf, raw)) :
    raw ≤ llbuf ∧ llbuf + dev.blkSz ≤ raw + 2 * dev.blkSz ∧ 0 < raw := by
  have positive : 0 < dev.blkSz := Nat.pow_pos (by decide)
  unfold allocLlbufAligned at given
  cases block : kmem.give (2 * dev.blkSz) with
  | none =>
    rw [block] at given
    cases given
  | some a =>
    rw [block] at given
    cases given
    obtain ⟨nonzero, fits⟩ := kmem.inside _ _ block
    have split := Nat.div_add_mod' (raw + dev.blkSz - 1) dev.blkSz
    have less := Nat.mod_lt (raw + dev.blkSz - 1) positive
    rw [wrap_of_lt (by omega)]
    omega

/-- The block that has been given is the one `__raw_llbuf` points to, and none has been freed yet. -/
structure Held (dev : BlockDevice) (kmem : Kmalloc) (t : Bounce) : Prop where
  freed : t.freed = []
  taken : t.llbuf = 0 ∧ t.taken = [] ∨ t.llbuf ≠ 0 ∧ t.taken = [t.raw] ∧
    (kmem.give (2 * dev.blkSz)).isSome = true

def Settled (t : Bounce) : Prop := t.freed = t.taken ∧ t.taken.length ≤ 1

theorem Held.release (held : Held dev kmem t) : Settled t.release := by
  unfold Bounce.release
  rcases held.taken with ⟨null, none⟩ | ⟨some, one, _⟩
  · rw [if_neg (not_not.mpr null)]
    exact ⟨held.freed.trans none.symm, by rw [none]; exact Nat.zero_le _⟩
  · rw [if_pos some]
    refine ⟨?_, by rw [one]; exact Nat.le_refl _⟩
    show t.raw :: t.freed = t.taken
    rw [held.freed, one]

theorem Held.moved (held : Held dev kmem t) (x : Xfer) : Held dev kmem { t with x } :=
  ⟨held.freed, held.taken⟩

theorem Held.ready (held : Held dev kmem t) :
    (t.ready kmem dev.blkSz = (false, t) ∧ kmem.give (2 * dev.blkSz) = none ∧ Settled t) ∨
      ∃ t', t.ready kmem dev.blkSz = (true, t') ∧ (kmem.give (2 * dev.blkSz)).isSome = true ∧
        Held dev kmem t' ∧ t'.x = t.x := by
  unfold Bounce.ready
  rcases held.taken with ⟨null, none⟩ | ⟨nonnull, one, given⟩
  · rw [if_neg (not_not.mpr null)]
    cases block : kmem.give (2 * dev.blkSz) with
    | none =>
      left
      have no : allocLlbufAligned kmem dev.blkSz = Option.none := by rw [allocLlbufAligned, block]
      rw [no]
      exact ⟨rfl, rfl, held.freed.trans none.symm, by rw [none]; exact Nat.zero_le _⟩
    | some raw =>
      right
      cases aligned : allocLlbufAligned kmem dev.blkSz with
      | none =>
        rw [allocLlbufAligned, block] at aligned
        cases aligned
      | some pair =>
        obtain ⟨llbuf, raw'⟩ := pair
        have inside := aligned_inside aligned
        have set : llbuf ≠ 0 := by omega
        refine ⟨{ t with llbuf, raw := raw', taken := raw' :: t.taken }, ?_, rfl,
          ⟨held.freed, .inr ⟨set, ?_, ?_⟩⟩, rfl⟩
        · simp only [set, ne_eq, not_false_eq_true, decide_true]
        · show raw' :: t.taken = [raw']
          rw [none]
        · rw [block]
          rfl
  · rw [if_pos nonnull]
    exact .inr ⟨t, rfl, given, held, rfl⟩

theorem accepted_some {result : Bool × Memory} {disk : Memory}
    (stored : accepted result = some disk) : result = (true, disk) := by
  obtain ⟨ok, after⟩ := result
  cases ok with
  | false => cases stored
  | true => exact congrArg _ (Option.some.inj stored)

theorem accepted_none {result : Bool × Memory} (failed : accepted result = none) :
    ∃ disk, result = (false, disk) := by
  obtain ⟨ok, after⟩ := result
  cases ok with
  | false => exact ⟨after, rfl⟩
  | true => cases failed

def Goes (dev : BlockDevice) (x : Xfer) (served : Option Memory) (pass : Pass Xfer (Bool × Xfer)) : Prop :=
  match served with
  | some disk => ∃ y, pass = .again y ∧ y.offs = x.offs + chunk dev x.offs x.resid ∧
      y.resid = x.resid - chunk dev x.offs x.resid ∧ y.disk = disk
  | none => ∃ y, pass = .leave (false, y) ∧ y.offs = x.offs

theorem xferPart_goes (data : Option (List UInt8)) {x : Xfer}
    (part : x.offs % dev.blkSz ≠ 0 ∨ x.resid < dev.blkSz) :
    Goes dev x (serve dev true data x.disk x.offs x.resid) (xferPart dev true data x) := by
  have length : chunk dev x.offs x.resid = min (dev.blkSz - x.offs % dev.blkSz) x.resid := if_pos part
  unfold serve xferPart
  rw [if_pos part]
  simp only [not_true_eq_false, if_false, and_false]
  cases dev.boRead x.disk (x.offs / dev.blkSz) 1 with
  | none => exact ⟨x, rfl, rfl⟩
  | some llbuf =>
    cases data with
    | none => exact ⟨_, rfl, congrArg (x.offs + ·) length.symm, congrArg (x.resid - ·) length.symm, rfl⟩
    | some data =>
      simp only [Xfer.next, length]
      cases served : accepted (dev.boWrite x.disk (x.offs / dev.blkSz) 1 (splice llbuf (x.offs % dev.blkSz)
          ((data.drop (data.length - x.resid)).take (min (dev.blkSz - x.offs % dev.blkSz) x.resid)))) with
      | none =>
        obtain ⟨disk, result⟩ := accepted_none served
        rw [result]
        exact ⟨_, rfl, rfl⟩
      | some disk =>
        rw [accepted_some served]
        exact ⟨_, rfl, congrArg (x.offs + ·) length.symm, congrArg (x.resid - ·) length.symm, rfl⟩

theorem xferWhole_goes {x : Xfer} (whole : ¬ (x.offs % dev.blkSz ≠ 0 ∨ x.resid < dev.blkSz))
    (buffered : Bool) :
    Goes dev x (serve dev buffered data x.disk x.offs x.resid) (xferWhole dev data x) := by
  have length : chunk dev x.offs x.resid = min (x.resid / dev.blkSz * dev.blkSz)
    blkfileMaxIoBytes := if_neg whole
  unfold serve xferWhole
  rw [if_neg whole]
  cases data with
  | none =>
    simp only [length]
    cases dev.boRead x.disk (x.offs / dev.blkSz)
        (min (x.resid / dev.blkSz * dev.blkSz) blkfileMaxIoBytes / dev.blkSz) with
    | none => exact ⟨x, rfl, rfl⟩
    | some got => exact ⟨_, rfl, congrArg (x.offs + ·) length.symm, congrArg (x.resid - ·) length.symm, rfl⟩
  | some data =>
    simp only [Xfer.next, length]
    cases served : accepted (dev.boWrite x.disk (x.offs / dev.blkSz)
        (min (x.resid / dev.blkSz * dev.blkSz) blkfileMaxIoBytes / dev.blkSz)
        ((data.drop (data.length - x.resid)).take
            (min (x.resid / dev.blkSz * dev.blkSz) blkfileMaxIoBytes))) with
    | none =>
      obtain ⟨disk, result⟩ := accepted_none served
      rw [result]
      exact ⟨_, rfl, rfl⟩
    | some disk =>
      rw [accepted_some served]
      exact ⟨_, rfl, congrArg (x.offs + ·) length.symm, congrArg (x.resid - ·) length.symm, rfl⟩

def Passed (dev : BlockDevice) (kmem : Kmalloc) (t : Bounce) (served : Option Memory)
    (pass : Option (Pass Bounce (Bool × Bounce))) : Prop :=
  match served with
  | some disk =>
    ∃ u, pass = some (.again u) ∧ Held dev kmem u ∧ u.x.offs = t.x.offs + chunk dev t.x.offs t.x.resid ∧
      u.x.resid = t.x.resid - chunk dev t.x.offs t.x.resid ∧ u.x.disk = disk
  | none => ∃ u, pass = some (.leave (false, u)) ∧ Settled u ∧ u.x.offs = t.x.offs

theorem Held.follow {x : Xfer} {pass : Pass Xfer (Bool × Xfer)} {served : Option Memory}
    (held : Held dev kmem t)
    (same : t.x = x) (goes : Goes dev x served pass) : Passed dev kmem t served (some (t.follow pass)) := by
  subst same
  cases served with
  | some disk =>
    obtain ⟨y, rfl, offs, resid, after⟩ := goes
    exact ⟨_, rfl, held.moved y, offs, resid, after⟩
  | none =>
    obtain ⟨y, rfl, offs⟩ := goes
    refine ⟨_, rfl, (held.moved y).release, ?_⟩
    show ({ t with x := y } : Bounce).release.x.offs = t.x.offs
    unfold Bounce.release
    split <;> exact offs

theorem Held.pass (held : Held dev kmem t) (data : Option (List UInt8)) (more : t.x.resid ≠ 0) :
    Passed dev kmem t (serve dev (kmem.give (2 * dev.blkSz)).isSome data t.x.disk t.x.offs t.x.resid)
      (xferPass dev kmem data t) := by
  unfold xferPass
  rw [if_neg more]
  by_cases part : t.x.offs % dev.blkSz ≠ 0 ∨ t.x.resid < dev.blkSz
  · rw [if_pos part]
    rcases held.ready with ⟨unready, without, settled⟩ | ⟨u, ready, given, kept, same⟩
    · have unserved : serve dev (kmem.give (2 * dev.blkSz)).isSome data t.x.disk t.x.offs
          t.x.resid = none := by
        unfold serve
        rw [if_pos part, without]
        rfl
      rw [unready, unserved]
      exact ⟨t, rfl, settled, rfl⟩
    · have followed := kept.follow same (xferPart_goes data part)
      unfold Passed at followed ⊢
      rw [same] at followed
      rw [ready, given]
      dsimp only
      rw [same]
      exact followed
  · rw [if_neg part]
    exact held.follow rfl (xferWhole_goes part _)

/-- How the loop ends: the block has been freed, and the position is behind by what has been transferred. -/
structure Ends (dev : BlockDevice) (kmem : Kmalloc) (data : Option (List UInt8)) (t : Bounce)
    (ok : Bool) (u : Bounce) : Prop where
  settled : Settled u
  ahead : t.x.offs ≤ u.x.offs
  served : ok = true ↔ Served dev (kmem.give (2 * dev.blkSz)).isSome data t.x.disk t.x.offs t.x.resid

theorem served_iff {buffered : Bool} {disk : Memory} (more : resid ≠ 0) :
    Served dev buffered data disk offs resid ↔
    ∃ disk', serve dev buffered data disk offs resid = some disk' ∧
      Served dev buffered data disk' (offs + chunk dev offs resid) (resid - chunk dev offs resid) := by
  constructor
  · rintro (_ | ⟨_, first, rest⟩)
    · exact absurd rfl more
    · exact ⟨_, first, rest⟩
  · rintro ⟨disk', first, rest⟩
    exact .chunk more first rest

theorem Held.run (held : Held dev kmem t) (data : Option (List UInt8)) {fuel : Nat}
    (enough : t.x.resid < fuel) :
    ∃ ok u, loop (xferPass dev kmem data) fuel t = some (ok, u) ∧ Ends dev kmem data t ok u := by
  induction fuel generalizing t with
  | zero => omega
  | succ fuel ih =>
    by_cases more : t.x.resid = 0
    · have left : xferPass dev kmem data t = some (.leave (true, t.release)) := if_pos more
      refine ⟨true, t.release, loop_leave (Nat.succ_pos fuel) left, held.release, ?_, iff_of_true rfl ?_⟩
      · unfold Bounce.release
        split <;> exact Nat.le_refl _
      · rw [more]
        exact .done _ _
    · have passed := held.pass data more
      cases result : serve dev (kmem.give (2 * dev.blkSz)).isSome data t.x.disk t.x.offs t.x.resid with
      | none =>
        rw [result] at passed
        obtain ⟨u, left, settled, same⟩ := passed
        refine ⟨false, u, loop_leave (Nat.succ_pos fuel) left, settled, same.ge,
          iff_of_false Bool.false_ne_true ?_⟩
        rw [served_iff more, result]
        exact nofun
      | some disk =>
        rw [result] at passed
        obtain ⟨u, again, kept, offs, resid, after⟩ := passed
        have positive := @chunk_pos dev t.x.offs t.x.resid more
        obtain ⟨ok, v, ran, ends⟩ := ih kept (by omega)
        refine ⟨ok, v, (loop_again again).trans ran, ends.settled, ?_, ?_⟩
        · have onward := ends.ahead
          omega
        · rw [ends.served, served_iff more, result, offs, resid, after]
          exact ⟨fun rest => ⟨disk, rfl, rest⟩, fun ⟨_, same, rest⟩ => Option.some.inj same ▸ rest⟩

theorem blkfileXfer_unmoved {bf : BlockFile} {nb : Nat} (nonneg : 0 ≤ bf.bfOffs) :
    Unmoved bf (blkfileXfer dev kmem bf nb data) ↔ Whole dev kmem bf nb data := by
  have start : Held dev kmem ⟨⟨bf.bfOffs.toNat, nb, bf.disk, false, []⟩, 0, 0, [], []⟩ :=
    ⟨rfl, .inl ⟨rfl, rfl⟩⟩
  obtain ⟨ok, u, ran, ends⟩ := start.run data (Nat.lt_succ_self nb)
  unfold Unmoved blkfileXfer Whole
  rw [ran]
  simp only [Option.some.injEq, exists_eq_left']
  have served := ends.served
  cases ok with
  | true => exact iff_of_true ⟨nofun, ends.settled⟩ (.inl (served.mp rfl))
  | false =>
    have unserved := mt served.mpr Bool.false_ne_true
    simp only [Bool.false_eq_true, if_false, forall_const]
    have more : nb ≠ 0 := by
      rintro rfl
      exact unserved (.done _ _)
    have passed := start.pass data more
    dsimp only at passed unserved
    cases result : serve dev (kmem.give (2 * dev.blkSz)).isSome data bf.disk bf.bfOffs.toNat nb with
    | none =>
      refine iff_of_true ⟨?_, ends.settled⟩ (.inr rfl)
      rw [result] at passed
      obtain ⟨v, left, _, same⟩ := passed
      rw [loop_leave (Nat.succ_pos nb) left] at ran
      cases ran
      rw [same]
      exact Int.toNat_of_nonneg nonneg
    | some disk =>
      rw [result] at passed
      obtain ⟨v, again, kept, offs, resid, _⟩ := passed
      dsimp only at offs resid
      rw [loop_again again] at ran
      have positive := @chunk_pos dev bf.bfOffs.toNat nb more
      obtain ⟨ok', u', ran', ends'⟩ := kept.run data (show v.x.resid < nb by omega)
      rw [ran] at ran'
      cases ran'
      have onward := ends'.ahead
      refine iff_of_false (fun ⟨same, _⟩ => ?_) ?_
      · omega
      · rintro (all | none)
        · exact unserved all
        · cases none

theorem refused_unmoved (bf : BlockFile) (count : Option Nat) : Unmoved bf (some ⟨count, [], bf, [], []⟩) :=
  ⟨_, rfl, fun _ => rfl, rfl, Nat.zero_le _⟩

theorem guarded_unmoved {denied : Prop} [Decidable denied] (priv : Option BlockDevice)
    (kmem : Kmalloc) (bf : BlockFile) (nb : Nat) (data : Option (List UInt8)) :
    Unmoved bf
        (if denied then some ⟨none, [], bf, [], []⟩
        else
          match priv with
          | none => some ⟨none, [], bf, [], []⟩
          | some dev =>
            if bf.bfOffs < 0 ∨ bf.bfOffs > bf.bfEnd then some ⟨some 0, [], bf, [], []⟩
            else blkfileXfer dev kmem bf nb data) ↔
      (denied ∨ bf.bfOffs < 0 ∨ bf.bfOffs > bf.bfEnd ∨ ∀ dev ∈ priv, Whole dev kmem bf nb data) := by
  by_cases refused : denied
  · rw [if_pos refused]
    exact iff_of_true (refused_unmoved bf none) (.inl refused)
  rw [if_neg refused]
  cases priv with
  | none => exact iff_of_true (refused_unmoved bf none) (.inr (.inr (.inr nofun)))
  | some dev =>
    dsimp only
    by_cases outside : bf.bfOffs < 0 ∨ bf.bfOffs > bf.bfEnd
    · rw [if_pos outside]
      exact iff_of_true (refused_unmoved bf (some 0)) (.inr (outside.imp_right .inl))
    · rw [if_neg outside, blkfileXfer_unmoved (by omega)]
      simp [refused, ← or_assoc, outside]

/-- A call that returns -1 leaves the position exactly when the first chunk of its transfer fails
    already, and frees its buffer in any case. -/
theorem failed_transfer_unmoved_iff (priv : Option BlockDevice) (kmem : Kmalloc) (bf : BlockFile) :
    (∀ len, Unmoved bf (blkfileRead priv kmem bf len) ↔
      (bf.oflags = .wronly ∨ bf.bfOffs < 0 ∨ bf.bfOffs > bf.bfEnd ∨
        ∀ dev ∈ priv, Whole dev kmem bf (bf.clipped len) none)) ∧
    ∀ data : List UInt8, Unmoved bf (blkfileWrite priv kmem bf data) ↔
      (bf.oflags = .rdonly ∨ bf.bfOffs < 0 ∨ bf.bfOffs > bf.bfEnd ∨
        ∀ dev ∈ priv, Whole dev kmem bf (bf.clipped data.length)
        (some (data.take (bf.clipped data.length)))) := by
  constructor
  · intro len
    unfold blkfileRead
    exact guarded_unmoved priv kmem bf (bf.clipped len) none
  · intro data
    unfold blkfileWrite
    exact guarded_unmoved priv kmem bf (bf.clipped data.length) (some (data.take (bf.clipped data.length)))

def Done.answer (d : Done) : Option Nat × List UInt8 × BlockFile := (d.count, d.buf, d.bf)

theorem xferWhole_llbuf {x y : Xfer} (again : xferWhole dev data x = .again y) : y.llbuf = x.llbuf := by
  unfold xferWhole at again
  dsimp only at again
  split at again
  · split at again
    · cases again
    · cases again
      rfl
  · split at again
    · cases again
    · cases again
      rfl

/-- The transfer in `t` and the one without the record of its buffer are at the same place. -/
structure Alike (dev : BlockDevice) (kmem : Kmalloc) (t : Bounce) (x : Xfer) : Prop where
  held : Held dev kmem t
  same : t.x = x
  buffered : x.llbuf = true → (kmem.give (2 * dev.blkSz)).isSome = true

theorem Alike.pass {x : Xfer} (alike : Alike dev kmem t x) :
    (∃ u y, xferPass dev kmem data t = some (.again u) ∧
        Block.xferPass dev (kmem.give (2 * dev.blkSz)).isSome data x = some (.again y) ∧ Alike dev kmem u y) ∨
      ∃ r s, xferPass dev kmem data t = some (.leave r) ∧
        Block.xferPass dev (kmem.give (2 * dev.blkSz)).isSome data x = some (.leave s) ∧ r.1 = s.1 ∧
          r.2.x = s.2 := by
  have kept : t.release.x = t.x := by
    unfold Bounce.release
    split <;> rfl
  have freed : ∀ (u : Bounce) (y : Xfer), ({ u with x := y } : Bounce).release.x = y := by
    intro u y
    unfold Bounce.release
    split <;> rfl
  obtain ⟨held, rfl, buffered⟩ := alike
  unfold xferPass Block.xferPass
  by_cases done : t.x.resid = 0
  · rw [if_pos done, if_pos done]
    exact .inr ⟨_, _, rfl, rfl, rfl, kept⟩
  rw [if_neg done, if_neg done]
  by_cases part : t.x.offs % dev.blkSz ≠ 0 ∨ t.x.resid < dev.blkSz
  · rw [if_pos part, if_pos part]
    rcases held.ready with ⟨unready, without, _⟩ | ⟨u, ready, given, kept, same⟩
    · have unbuffered : ¬ t.x.llbuf = true := by
        intro some
        have given := buffered some
        rw [without] at given
        cases given
      have left : xferPart dev false data t.x = .leave (false, t.x) := by
        unfold xferPart
        exact if_pos ⟨unbuffered, Bool.false_ne_true⟩
      rw [unready, without, Option.isSome_none, left]
      exact .inr ⟨_, _, rfl, rfl, rfl, rfl⟩
    · rw [ready, given]
      dsimp only
      rw [same]
      cases xferPart dev true data t.x with
      | again y => exact .inl ⟨_, y, rfl, rfl, kept.moved y, rfl, fun _ => given⟩
      | leave result => exact .inr ⟨_, result, rfl, rfl, rfl, freed u result.2⟩
  · rw [if_neg part, if_neg part]
    cases passed : xferWhole dev data t.x with
    | again y =>
      exact .inl ⟨_, y, rfl, rfl, held.moved y, rfl, fun some =>
        buffered ((xferWhole_llbuf passed).symm.trans some)⟩
    | leave result => exact .inr ⟨_, result, rfl, rfl, rfl, freed t result.2⟩

theorem blkfileXfer_answer (dev : BlockDevice) (kmem : Kmalloc) (bf : BlockFile) (nb : Nat)
    (data : Option (List UInt8)) :
    (blkfileXfer dev kmem bf nb data).map Done.answer =
      Block.blkfileXfer dev (kmem.give (2 * dev.blkSz)).isSome bf nb data := by
  have start : Held dev kmem ⟨⟨bf.bfOffs.toNat, nb, bf.disk, false, []⟩, 0, 0, [], []⟩ :=
    ⟨rfl, .inl ⟨rfl, rfl⟩⟩
  obtain ⟨ok, u, ran, _⟩ := start.run data (Nat.lt_succ_self nb)
  obtain ⟨⟨ok', x⟩, ran', same, place⟩ := loop_simulates (Alike dev kmem)
    (fun (r : Bool × Bounce) (s : Bool × Xfer) => r.1 = s.1 ∧ r.2.x = s.2)
      (fun _ _ alike => .inr alike.pass) ran ⟨start, rfl, nofun⟩
  dsimp only at same place
  unfold blkfileXfer Block.blkfileXfer
  rw [ran, ran', ← same, ← place]
  rfl

theorem worn_small : 1 ≤ 15 := by decide

def worn : BlockDevice where
  blkSzLog2 := 1
  small := worn_small
  lba := 4
  boRead := fun disk blkno cnt => if blkno + cnt ≤ 1 then some (bytes disk (blkno * 2) (cnt * 2)) else none
  boWrite := fun disk _ _ _ => (false, disk)

def roomy : Kmalloc where
  give := fun size => if size ≤ 64 then some 0x80300000 else none
  inside := by
    intro size a given
    split at given
    · cases given
      omega
    · cases given

/-- A read of three bytes fails in its second chunk, and the position has come to 2. -/
theorem failed_read_moved : ¬ Unmoved (blkfileOpen worn (fun _ => 0) .rdonly)
    (blkfileRead (some worn) roomy (blkfileOpen worn (fun _ => 0) .rdonly) 3) := by
  rintro ⟨d, ran, same, _⟩
  cases ran
  exact absurd (same rfl) (by decide)

end Embryo.Block.Bounced
