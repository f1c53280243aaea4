import Embryo.Uipc.Packet

namespace Embryo.Uipc

open Embryo.Machine
open Embryo.Kmem (Arena kmemMalloc)

structure Windowed (m : Mbuf) (len : Nat) : Prop where
  low : m.room.addr ≤ m.data
  high : m.data + len ≤ m.room.stop

def Reservable (A : Arena) (P : Pool) (first : Mbuf) (len : Nat) : Prop :=
  len ≤ leadingSpace first ∨ (len ≤ mhlen ∧ (kmemMalloc A P.kmem msize).1 ≠ 0)

/-- The packet `first :: rest` with `len` bytes more in front. Whatever is written there, its own
    data stays. -/
structure Reserved (P P' : Pool) (first : Mbuf) (rest : Chain) (len : Nat) (head : Mbuf)
    (tail : Chain) : Prop where
  window : Windowed head len
  fits : ∀ e ∈ head :: tail, e.Fit
  pkthdr : head.flags.pkthdr = first.flags.pkthdr
  mpLen : first.flags.pkthdr = true → head.pkthdr.mpLen = wrap (first.pkthdr.mpLen + len)
  data : ∀ mem, (∀ x, ¬ (head.data ≤ x ∧ x < head.data + len) → mem x = P'.mem x) →
    flatten mem (head :: tail) = bytes mem head.data len ++ flatten P.mem (first :: rest)

variable {A : Arena} {watch : List Nat} {P : Pool} {first : Mbuf} {rest : Chain} {live : List Mbuf}
  {len : Nat}

theorem leadingSpace_eq (plain : first.flags.ext = false) (fit : first.Fit) (bound : first.room.stop < 2^32) :
    leadingSpace first = first.data - first.room.addr := by
  have space : leadingSpace first = wsub first.data first.room.addr := by
    cases flagged : first.flags.pkthdr <;> simp [leadingSpace, Mbuf.room, plain, flagged]
  have high := fit.2
  rw [space]
  exact wsub_of_le fit.1 (by omega)

theorem Wf.flatten_apart {n : Mbuf} {chain : Chain} {mem : Memory} (wf : Wf A P (n :: live))
    (plain : n.flags.ext = false) (members : ∀ e ∈ chain, e ∈ live) (fits : ∀ e ∈ chain, e.Fit)
    (frame : ∀ x, ¬ (n.room.addr ≤ x ∧ x < n.room.stop) → mem x = P.mem x) :
    flatten mem chain = flatten P.mem chain := by
  apply List.flatMap_congr
  intro e member
  apply bytes_congr
  intro x low high
  have apart := wf.rooms_apart plain (members e member)
  have fit := fits e member
  apply frame
  simp only [Region.Apart, Mbuf.Fit] at apart fit
  omega

theorem Wf.write_window {mem : Memory} (wf : Wf A P (first :: live)) (window : Windowed first len)
    (same : SameBut first.data len P.mem mem) : Wf A { P with mem } (first :: live) := by
  apply wf.write List.mem_cons_self
  intro x outside
  apply same
  have := window.low
  have := window.high
  omega

def widened (first : Mbuf) (len : Nat) : Mbuf :=
  { first with
    data := wsub first.data len
    len := wrap (first.len + len)
    pkthdr := if first.flags.pkthdr then
      { first.pkthdr with mpLen := wrap (first.pkthdr.mpLen + len) } else first.pkthdr }

theorem reserve_in_place (space : len ≤ leadingSpace first) :
    mbufReserve A P (first :: rest) len = some (widened first len :: rest, P) := by
  rw [mbufReserve, if_pos space]
  simp only [setMpLen, widened]
  split <;> rfl

theorem Wf.reserved_in_place (wf : Wf A P (first :: rest ++ live)) (fits : ∀ e ∈ first :: rest, e.Fit)
    (space : len ≤ leadingSpace first) : Reserved P P first rest len (widened first len) rest := by
  have fit := fits first List.mem_cons_self
  have below : first.room.stop < 2^32 := wf.room_lt (by simp)
  have room : (widened first len).room = first.room := rfl
  have header : first.flags.pkthdr = true →
      (widened first len).pkthdr.mpLen = wrap (first.pkthdr.mpLen + len) := by
    intro flagged
    simp only [widened, flagged, if_true]
  have low : first.room.addr + len ≤ first.data := by
    by_cases plain : first.flags.ext = false
    · have := leadingSpace_eq plain fit below
      have := fit.1
      omega
    · have none : leadingSpace first = 0 := by simp [leadingSpace, plain]
      have := fit.1
      omega
  have data : (widened first len).data = first.data - len := wsub_of_le (by omega) (by have := fit.2; omega)
  have size : (widened first len).len = len + first.len := by
    have := fit.2
    rw [Nat.add_comm]
    exact wrap_of_lt (by omega)
  have start := fit.1
  have stop := fit.2
  refine ⟨⟨?_, ?_⟩, ?_, rfl, header, ?_⟩
  · rw [room, data]
    omega
  · rw [room, data]
    omega
  · intro e member
    rcases List.mem_cons.mp member with rfl | member
    · simp only [Mbuf.Fit, room, data, size]
      omega
    · exact fits e (List.mem_cons_of_mem _ member)
  · intro mem frame
    rw [data] at frame
    have own : bytes mem first.data first.len = bytes P.mem first.data first.len := by
      apply bytes_congr
      intro x above under
      exact frame x (by omega)
    have others : flatten mem rest = flatten P.mem rest := by
      by_cases plain : first.flags.ext = false
      · apply wf.flatten_apart plain (fun e member => List.mem_append_left _ member)
          (fun e member => fits e (List.mem_cons_of_mem _ member))
        intro x outside
        exact frame x (by omega)
      · have none : leadingSpace first = 0 := by simp [leadingSpace, plain]
        have same : mem = P.mem := by
          funext x
          exact frame x (by omega)
        rw [same]
    rw [flatten_cons, flatten_cons, others, data, size, bytes_add, Nat.sub_add_cancel (by omega), own,
      List.append_assoc]

def fronted (new first : Mbuf) (len : Nat) : Mbuf :=
  let new := if first.flags.pkthdr then copyPkthdr new first else new
  { new with
    data := if len < mhlen then new.data + (mhlen - len) / 4 * 4 else new.data
    len := len
    pkthdr := if first.flags.pkthdr then
      { new.pkthdr with mpLen := wrap (first.pkthdr.mpLen + len) } else new.pkthdr }

def unheaded (first : Mbuf) : Mbuf := if first.flags.pkthdr then first.dropPkthdr else first

theorem reserve_fresh {new : Mbuf} {P' : Pool} (plain : new.flags = noFlags)
    (space : ¬ len ≤ leadingSpace first)
    (short : len ≤ mhlen) (given : mbufGet A P first.type = (some new, P')) :
    mbufReserve A P (first :: rest) len = some (fronted new first len :: unheaded first :: rest, P') := by
  rw [mbufReserve, if_neg space, if_neg (by omega)]
  simp only [reserveFront, given]
  cases flagged : first.flags.pkthdr with
  | false =>
    by_cases less : len < mhlen <;> simp [setMpLen, fronted, unheaded, flagged, less, plain, noFlags]
  | true =>
    by_cases less : len < mhlen <;>
      simp [setMpLen, fronted, unheaded, flagged, less, copyPkthdr, Flags.copied]

theorem fronted_room {left : Stale} {p type : Nat} (short : len ≤ mhlen) :
    Windowed (fronted (initial left p type false) first len) len ∧
      (fronted (initial left p type false) first len).flags.ext = false := by
  cases flagged : first.flags.pkthdr <;> by_cases less : len < mhlen <;>
    simp only [fronted, initial, noFlags, copyPkthdr, Flags.copied, flagged, less, if_true, if_false,
      Bool.false_eq_true, and_true] <;>
    constructor <;>
    simp only [Mbuf.room, Mbuf.pktdat, Mbuf.dat, Region.stop, mhlen, mlen, msize, sizeofMHdr, sizeofPkthdr,
      if_true, if_false, Bool.false_eq_true] at * <;>
    omega

theorem Wf.fronted {left : Stale} {p : Nat}
    (wf : Wf A P (initial left p first.type false :: (first :: rest ++ live))) :
    Wf A P (fronted (initial left p first.type false) first len :: (unheaded first :: rest ++ live)) := by
  have head : Wf A P (Uipc.fronted (initial left p first.type false) first len ::
      (first :: rest ++ live)) := by
    apply wf.adjust
    · cases flagged : first.flags.pkthdr <;> simp [Uipc.fronted, flagged, copyPkthdr]
    · cases flagged : first.flags.pkthdr <;> simp [Uipc.fronted, flagged, copyPkthdr]
    · cases flagged : first.flags.pkthdr <;>
        simp [Uipc.fronted, flagged, copyPkthdr, initial, noFlags, Flags.copied]
    · simp [initial, noFlags]
  unfold unheaded
  split
  · exact head.adjust_second rfl rfl rfl (fun _ => rfl)
  · exact head

theorem Wf.reserved_fresh {P₁ : Pool} {left : Stale} {p : Nat} (short : len ≤ mhlen) (mem : P₁.mem = P.mem)
    (wf : Wf A P₁ (initial left p first.type false :: (first :: rest ++ live)))
    (fits : ∀ e ∈ first :: rest, e.Fit) :
    Reserved P P₁ first rest len (Uipc.fronted (initial left p first.type false) first len)
      (unheaded first :: rest) := by
  obtain ⟨window, plain⟩ := @fronted_room first len left p first.type short
  have wf₁ := @Wf.fronted A P₁ first rest live len left p wf
  have kept : ∀ e ∈ unheaded first :: rest, e.Fit := by
    unfold unheaded
    split
    · exact fits_drop fits
    · exact fits
  have same : (unheaded first).data = first.data ∧ (unheaded first).len = first.len := by
    unfold unheaded
    split <;> exact ⟨rfl, rfl⟩
  have size : (Uipc.fronted (initial left p first.type false) first len).len = len := rfl
  refine ⟨window, ?_, ?_, ?_, ?_⟩
  · intro e member
    rcases List.mem_cons.mp member with rfl | member
    · exact ⟨window.low, window.high⟩
    · exact kept e member
  · cases flagged : first.flags.pkthdr <;>
      simp [Uipc.fronted, flagged, copyPkthdr, initial, noFlags, Flags.copied]
  · intro flagged
    simp [Uipc.fronted, flagged]
  · intro mem' frame
    have others : flatten mem' (unheaded first :: rest) = flatten P₁.mem (unheaded first :: rest) := by
      apply wf₁.flatten_apart plain (fun e member => List.mem_append_left _ member) kept
      intro x outside
      apply frame
      have := window.low
      have := window.high
      omega
    rw [flatten_cons, size, others, mem, flatten_cons, flatten_cons, same.1, same.2]

theorem Wf.reserve (wf : Wf A P (first :: rest ++ live)) (fits : ∀ e ∈ first :: rest, e.Fit)
    (watched : ∀ a ∈ watch, a ∈ addrs (first :: rest ++ live)) (len : Nat) :
    (¬ Reservable A P first len ∧ ∃ P', mbufReserve A P (first :: rest) len = some ([], P') ∧
      Moved A watch P P' (first :: rest ++ live) live ∧ Calm P P' live) ∨
    (Reservable A P first len ∧ ∃ head tail P',
      mbufReserve A P (first :: rest) len = some (head :: tail, P') ∧
      Moved A watch P P' (first :: rest ++ live) (head :: tail ++ live) ∧
      Calm P P' (first :: rest ++ live) ∧ Reserved P P' first rest len head tail) := by
  by_cases space : len ≤ leadingSpace first
  · right
    refine ⟨.inl space, _, _, P, reserve_in_place space, ?_, Calm.refl P _, wf.reserved_in_place fits space⟩
    have adjusted : Wf A P (widened first len :: (rest ++ live)) := wf.adjust rfl rfl rfl (fun _ => rfl)
    exact .same watch adjusted rfl rfl (List.Perm.refl _)
  by_cases short : len ≤ mhlen
  · rcases wf.take_moved (wf.types first (by simp)) false watched with
      ⟨zero, failed⟩ | ⟨p, k, call, nonzero, given, moved⟩
    · left
      obtain ⟨P', freed, moved, calm⟩ := wf.freem_moved watch
      refine ⟨?_, P', ?_, moved, calm⟩
      · rintro (room | ⟨_, granted⟩)
        · exact space room
        · exact granted zero
      · rw [mbufReserve, if_neg space, if_neg (by omega)]
        simp only [reserveFront, mbufGet, failed, bad, freed, setMpLen]
    · right
      refine ⟨.inr ⟨short, by rw [call]; exact nonzero⟩, _, _, _, reserve_fresh rfl space short given, ?_,
        took_calm P k p first.type _, moved.wf.reserved_fresh short rfl fits⟩
      apply moved.trans
      have same : addrs (Uipc.fronted (initial (P.stale p) p first.type false) first len ::
          (unheaded first :: rest ++ live)) =
          addrs (initial (P.stale p) p first.type false :: (first :: rest ++ live)) := by
        cases flagged : first.flags.pkthdr <;>
          simp [addrs, Uipc.fronted, unheaded, flagged, copyPkthdr, Mbuf.dropPkthdr]
      exact .same watch moved.wf.fronted rfl rfl (same ▸ List.Perm.refl _)
  · left
    obtain ⟨P', freed, moved, calm⟩ := wf.freem_moved watch
    refine ⟨?_, P', ?_, moved, calm⟩
    · rintro (room | ⟨fits, _⟩)
      · exact space room
      · exact short fits
    · rw [mbufReserve, if_neg space, if_pos (by omega)]
      simp only [bad, freed]

end Embryo.Uipc
