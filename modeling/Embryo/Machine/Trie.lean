import Mathlib

namespace Embryo.Machine

inductive Trie (κ : Type) where
  | leaf (k : κ)
  | node (b : Nat) (l r : Trie κ)

namespace Trie

variable {κ : Type} {bit : κ → Nat → Bool} {w : Nat → Bool} {b start low bound : Nat} {k : κ} {t : Trie κ}

def keys : Trie κ → List κ
  | leaf k => [k]
  | node _ l r => l.keys ++ r.keys

def find (w : Nat → Bool) : Trie κ → κ
  | leaf k => k
  | node b l r => if w b then r.find w else l.find w

def fork (w : Nat → Bool) (b : Nat) (k : κ) (t : Trie κ) : Trie κ :=
  if w b then node b t (leaf k) else node b (leaf k) t

def grow (w : Nat → Bool) (b : Nat) (k : κ) : Trie κ → Trie κ
  | leaf k' => fork w b k (leaf k')
  | node b' l r =>
    if b ≤ b' then fork w b k (node b' l r)
    else if w b' then node b' l (r.grow w b k) else node b' (l.grow w b k) r

def Agree (v w : Nat → Bool) (start b : Nat) : Prop := ∀ i, start ≤ i → i < b → v i = w i

/-- The bits of the nodes increase from `low` on; each one splits keys that agree on all bits from
    `start` up to it. -/
def Sound (bit : κ → Nat → Bool) (start : Nat) : Nat → Trie κ → Prop
  | _, leaf _ => True
  | low, node b l r => low ≤ b ∧ (∀ k ∈ l.keys, bit k b = false) ∧ (∀ k ∈ r.keys, bit k b = true) ∧
      (∀ k ∈ l.keys ++ r.keys, ∀ k' ∈ l.keys ++ r.keys, Agree (bit k) (bit k') start b) ∧
      l.Sound bit start (b + 1) ∧ r.Sound bit start (b + 1)

def Within (bound : Nat) : Trie κ → Prop
  | leaf _ => True
  | node b l r => b < bound ∧ l.Within bound ∧ r.Within bound

theorem Agree.symm {v : Nat → Bool} (agree : Agree v w start b) : Agree w v start b :=
  fun i first last => (agree i first last).symm

theorem Agree.trans {u v : Nat → Bool} (first : Agree u v start b) (second : Agree v w start b) :
    Agree u w start b :=
  fun i low high => (first i low high).trans (second i low high)

theorem Agree.mono {v : Nat → Bool} {b' : Nat} (agree : Agree v w start b) (less : b' ≤ b) :
    Agree v w start b' :=
  fun i first last => agree i first (by omega)

theorem find_mem (w : Nat → Bool) (t : Trie κ) : t.find w ∈ t.keys := by
  induction t with
  | leaf k => exact List.mem_singleton_self k
  | node b l r ihl ihr =>
    rw [find]
    split
    · exact List.mem_append_right _ ihr
    · exact List.mem_append_left _ ihl

theorem Sound.find_own (sound : t.Sound bit start low) (member : k ∈ t.keys) : t.find (bit k) = k := by
  induction t generalizing low with
  | leaf k' => exact (List.mem_singleton.mp member).symm
  | node b l r ihl ihr =>
    obtain ⟨-, left, right, -, soundL, soundR⟩ := sound
    rw [find]
    rcases List.mem_append.mp member with inL | inR
    · rw [left k inL, if_neg Bool.false_ne_true]
      exact ihl soundL inL
    · rw [right k inR, if_pos rfl]
      exact ihr soundR inR

theorem Sound.find_bit {l r : Trie κ} (sound : (node b l r).Sound bit start low) :
    bit ((node b l r).find w) b = w b := by
  obtain ⟨-, left, right, -, -, -⟩ := sound
  rw [find]
  split
  · next turn => rw [turn, right _ (find_mem _ r)]
  · next turn => rw [Bool.eq_false_of_not_eq_true turn, left _ (find_mem _ l)]

theorem Sound.find_congr {v : Nat → Bool} (sound : t.Sound bit start low) (above : start ≤ low)
    (within : t.Within bound) (agree : Agree v w start bound) : t.find v = t.find w := by
  induction t generalizing low with
  | leaf k' => rfl
  | node b l r ihl ihr =>
    obtain ⟨here, -, -, -, soundL, soundR⟩ := sound
    obtain ⟨inside, withinL, withinR⟩ := within
    rw [find, find, agree b (by omega) inside, ihl soundL (by omega) withinL, ihr soundR (by omega) withinR]

theorem Sound.find_agree (sound : t.Sound bit start low) (above : start ≤ low)
    (within : t.Within bound) (member : k ∈ t.keys)
    (agree : Agree w (bit k) start bound) : t.find w = k := by
  rw [sound.find_congr above within agree, sound.find_own member]

theorem Sound.mono {low' : Nat} (sound : t.Sound bit start low)
    (less : ∀ b l r, t = node b l r → low' ≤ b) : t.Sound bit start low' := by
  cases t with
  | leaf k => trivial
  | node b l r => exact ⟨less b l r rfl, sound.2⟩

theorem Within.mono {bound' : Nat} (within : t.Within bound) (le : bound ≤ bound') : t.Within bound' := by
  induction t with
  | leaf k => trivial
  | node b l r ihl ihr =>
    obtain ⟨here, left, right⟩ := within
    exact ⟨Nat.lt_of_lt_of_le here le, ihl left, ihr right⟩

theorem fork_keys : (fork w b k t).keys.Perm (k :: t.keys) := by
  unfold fork
  split
  · exact List.perm_append_comm
  · exact List.Perm.refl _

theorem grow_keys (t : Trie κ) : (t.grow w b k).keys.Perm (k :: t.keys) := by
  induction t with
  | leaf k' => exact fork_keys
  | node b' l r ihl ihr =>
    rw [grow]
    split
    · exact fork_keys
    split
    · exact (ihr.append_left l.keys).trans List.perm_middle
    · exact ihl.append_right r.keys

theorem mem_grow {k' : κ} : k' ∈ (t.grow w b k).keys ↔ k' = k ∨ k' ∈ t.keys := by
  rw [(grow_keys t).mem_iff, List.mem_cons]

theorem grow_within (t : Trie κ) (within : t.Within bound) (inside : b < bound) :
    (t.grow w b k).Within bound := by
  have forked : ∀ s : Trie κ, s.Within bound → (fork w b k s).Within bound := by
    intro s within
    unfold fork
    split
    · exact ⟨inside, within, trivial⟩
    · exact ⟨inside, trivial, within⟩
  induction t with
  | leaf k' => exact forked _ trivial
  | node b' l r ihl ihr =>
    rw [grow]
    split
    · exact forked _ within
    split
    · exact ⟨within.1, within.2.1, ihr within.2.2⟩
    · exact ⟨within.1, ihl within.2.1, within.2.2⟩

theorem Sound.fork (sound : t.Sound bit start low) (here : low ≤ b)
    (later : ∀ b' l r, t = node b' l r → b < b')
    (agree : Agree (bit k) (bit (t.find (bit k))) start b)
    (differ : bit k b ≠ bit (t.find (bit k)) b) (above : start ≤ b) :
    (fork (bit k) b k t).Sound bit start low := by
  have same : ∀ k' ∈ t.keys, bit k' b = bit (t.find (bit k)) b ∧ Agree (bit k') (bit k) start b := by
    intro k' member
    cases t with
    | leaf f =>
      rw [List.mem_singleton.mp member]
      exact ⟨rfl, agree.symm⟩
    | node b' l r =>
      obtain ⟨-, -, -, all, -, -⟩ := sound
      have found := find_mem (bit k) (node b' l r)
      have less := later b' l r rfl
      have equal := all k' member _ found
      exact ⟨equal b above less, (equal.mono (by omega)).trans agree.symm⟩
  have below : t.Sound bit start (b + 1) := sound.mono fun b' l r isNode => later b' l r isNode
  have pairs : ∀ k₁, k₁ = k ∨ k₁ ∈ t.keys → ∀ k₂, k₂ = k ∨ k₂ ∈ t.keys → Agree (bit k₁) (bit k₂) start b := by
    have toNew : ∀ k', k' = k ∨ k' ∈ t.keys → Agree (bit k') (bit k) start b := by
      rintro k' (rfl | member)
      · exact fun _ _ _ => rfl
      · exact (same k' member).2
    exact fun k₁ first k₂ second => (toNew k₁ first).trans (toNew k₂ second).symm
  have others : ∀ k' ∈ t.keys, bit k' b = !bit k b := by
    intro k' member
    rw [(same k' member).1]
    exact Bool.eq_not_of_ne differ.symm
  unfold Trie.fork
  cases turn : bit k b with
  | true =>
    rw [if_pos rfl]
    refine ⟨here, fun k' member => by
      rw [others k' member, turn]; rfl, fun k' member => ?_, fun k₁ first k₂ second => ?_, below, trivial⟩
    · rw [List.mem_singleton.mp member, turn]
    · exact pairs k₁ (by simpa [keys, or_comm] using first) k₂ (by simpa [keys, or_comm] using second)
  | false =>
    rw [if_neg Bool.false_ne_true]
    refine ⟨here, fun k' member => ?_, fun k' member => by
      rw [others k' member, turn]; rfl, fun k₁ first k₂ second => ?_, trivial, below⟩
    · rw [List.mem_singleton.mp member, turn]
    · exact pairs k₁ (by simpa [keys] using first) k₂ (by simpa [keys] using second)

theorem Sound.grow (sound : t.Sound bit start low) (above : start ≤ low) (here : low ≤ b)
    (agree : Agree (bit k) (bit (t.find (bit k))) start b) (differ : bit k b ≠ bit (t.find (bit k)) b) :
    (t.grow (bit k) b k).Sound bit start low := by
  induction t generalizing low with
  | leaf k' => exact Sound.fork sound here (fun _ _ _ other => by cases other) agree differ (by omega)
  | node b' l r ihl ihr =>
    rw [Trie.grow]
    split
    · next upto =>
      have other : b ≠ b' := by
        rintro rfl
        exact differ sound.find_bit.symm
      refine sound.fork here ?_ agree differ (by omega)
      rintro _ _ _ ⟨⟩
      omega
    · next behind =>
      obtain ⟨first, left, right, all, soundL, soundR⟩ := sound
      have news : ∀ k' ∈ l.keys ++ r.keys, Agree (bit k) (bit k') start b' := by
        intro k' member
        exact (agree.mono (by omega)).trans (all _ (find_mem (bit k) (node b' l r)) k' member)
      have both : ∀ k₁, k₁ = k ∨ k₁ ∈ l.keys ∨ k₁ ∈ r.keys → ∀ k₂, k₂ = k ∨ k₂ ∈ l.keys ∨ k₂ ∈ r.keys →
          Agree (bit k₁) (bit k₂) start b' := by
        simp only [← List.mem_append]
        rintro k₁ (rfl | old₁) k₂ (rfl | old₂)
        · exact fun _ _ _ => rfl
        · exact news k₂ old₂
        · exact (news k₁ old₁).symm
        · exact all k₁ old₁ k₂ old₂
      rw [find] at agree differ
      split
      · next turn =>
        rw [if_pos turn] at agree differ
        refine ⟨first, left, fun k' member => ?_, fun k₁ in₁ k₂ in₂ => ?_, soundL,
          ihr soundR (by omega) (by omega) agree differ⟩
        · rcases mem_grow.mp member with rfl | old
          · exact turn
          · exact right k' old
        · simp only [List.mem_append, mem_grow] at in₁ in₂
          exact both k₁ (or_left_comm.mp in₁) k₂ (or_left_comm.mp in₂)
      · next turn =>
        rw [if_neg turn] at agree differ
        refine ⟨first, fun k' member => ?_, right, fun k₁ in₁ k₂ in₂ => ?_,
          ihl soundL (by omega) (by omega) agree differ, soundR⟩
        · rcases mem_grow.mp member with rfl | old
          · exact Bool.eq_false_of_not_eq_true turn
          · exact left k' old
        · simp only [List.mem_append, mem_grow] at in₁ in₂
          exact both k₁ (or_assoc.mp in₁) k₂ (or_assoc.mp in₂)

end Trie

end Embryo.Machine
