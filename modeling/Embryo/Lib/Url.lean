import Embryo.Lib.Cvt

namespace Embryo.Lib

open Embryo.Machine

structure URL where
  protocol : Option Str
  username : Option Str
  passwd : Option Str
  hostname : Option Str
  filepath : Option Str
  port : Option Nat
deriving DecidableEq

def URL.blank : URL := ⟨none, none, none, none, none, none⟩

def strchr (s : Str) (c : UInt8) : Option Nat := s.idxOf? c

def strstr (s d : Str) : Option Nat :=
  if d = [] then some 0
  else match s with
    | [] => none
    | c :: rest => if d.isPrefixOf (c :: rest) then some 0 else (strstr rest d).map (· + 1)

def parseProtocol (s : Str) (url : URL) : Option Str × URL :=
  match strstr s [58, 47, 47] with
  | none => (none, url)
  | some n =>
    if n ≥ 16 then (none, url) else (some (s.drop (n + 3)), { url with protocol := some (s.take n) })

def colonBefore (s : Str) (t : Nat) : Option Nat := (strchr s 58).filter (· < t)

def parseUser (s : Str) (url : URL) : Option Str × URL :=
  match strchr s 64 with
  | none => (some s, { url with username := some [], passwd := some [] })
  | some t =>
    match colonBefore s t with
    | some n =>
      if n ≥ 16 then (none, url)
      else
        let url := { url with username := some (s.take n) }
        let m := t - (n + 1)
        if m ≥ 16 then (none, url)
        else (some (s.drop (t + 1)), { url with passwd := some ((s.drop (n + 1)).take m) })
    | none =>
      if t ≥ 16 then (none, url)
      else (some (s.drop (t + 1)), { url with username := some (s.take t), passwd := some [] })

def parseHost (s : Str) (url : URL) : Option Str × URL :=
  match strchr s 47 with
  | none => (none, url)
  | some t =>
    match colonBefore s t with
    | some n =>
      if n ≥ 32 then (none, url)
      else
        let url := { url with hostname := some (s.take n) }
        let m := t - (n + 1)
        if m ≥ 8 then (none, url)
        else
          match atob ((s.drop (n + 1)).take m) 10 with
          | none => (none, url)
          | some port => (some (s.drop (t + 1)), { url with port := some (port % 2^16) })
    | none =>
      if t ≥ 32 then (none, url)
      else (some (s.drop (t + 1)), { url with hostname := some (s.take t), port := some 0 })

def parsePath (s : Str) (url : URL) : Int × URL :=
  if s.length ≥ 32 then (-1, url) else (0, { url with filepath := some s })

def urlParse (urlstr : Option Str) : Int × URL :=
  match urlstr with
  | none => (-1, .blank)
  | some s =>
    match parseProtocol s .blank with
    | (none, url) => (-1, url)
    | (some s, url) =>
      match parseUser s url with
      | (none, url) => (-1, url)
      | (some s, url) =>
        match parseHost s url with
        | (none, url) => (-1, url)
        | (some s, url) => parsePath s url

structure Parts where
  protocol : Str
  user : Option (Str × Option Str)
  host : Str
  port : Option Nat
  path : Str

namespace Parts

def login (p : Parts) : Str :=
  match p.user with
  | none => []
  | some (user, none) => user ++ [64]
  | some (user, some passwd) => user ++ 58 :: passwd ++ [64]

def service (p : Parts) : Str :=
  match p.port with
  | none => []
  | some n => 58 :: decimal n

def render (p : Parts) : Str :=
  p.protocol ++ [58, 47, 47] ++ (p.login ++ (p.host ++ p.service ++ 47 :: p.path))

def url (p : Parts) : URL where
  protocol := some p.protocol
  username := some (p.user.elim [] Prod.fst)
  passwd := some ((p.user.bind Prod.snd).getD [])
  hostname := some p.host
  filepath := some p.path
  port := some (p.port.getD 0)

end Parts

def Plain (s : Str) : Prop := ∀ c ∈ s, c ≠ 58 ∧ c ≠ 64 ∧ c ≠ 47

structure Parts.Fits (p : Parts) : Prop where
  protocol : Plain p.protocol ∧ p.protocol.length < 16
  username : ∀ user passwd, p.user = some (user, passwd) → Plain user ∧ user.length < 16
  passwd : ∀ user passwd, p.user = some (user, some passwd) → Plain passwd ∧ passwd.length < 16
  host : Plain p.host ∧ p.host.length < 32
  port : ∀ n, p.port = some n → 1 ≤ n
  path : p.path.length < 32

theorem strchr_append {a : Str} {c : UInt8} (clear : c ∉ a) (b : Str) :
    strchr (a ++ c :: b) c = some a.length := by
  induction a with
  | nil => exact if_pos (beq_self_eq_true c)
  | cons d rest ih =>
    have other : (d == c) = false := by
      rw [beq_eq_false_iff_ne]
      exact fun same => clear (same ▸ List.mem_cons_self)
    have found := ih (fun held => clear (List.mem_cons_of_mem _ held))
    unfold strchr at found ⊢
    rw [List.cons_append, List.idxOf?_cons, other, found]
    rfl

theorem strchr_none {s : Str} {c : UInt8} (clear : c ∉ s) : strchr s c = none :=
  List.idxOf?_eq_none_iff.mpr clear

theorem colonBefore_append {a b : Str} (clear : 58 ∉ a) {t : Nat} (less : a.length < t) :
    colonBefore (a ++ 58 :: b) t = some a.length := by
  rw [colonBefore, strchr_append clear]
  simp [less]

theorem colonBefore_none {a b : Str} (clear : 58 ∉ a) : colonBefore (a ++ b) a.length = none := by
  by_cases held : 58 ∈ b
  · obtain ⟨l, r, rfl, before⟩ := List.eq_append_cons_of_mem held
    rw [colonBefore, ← List.append_assoc, strchr_append (by simp [clear, before])]
    simp
  · rw [colonBefore, strchr_none (by simp [clear, held])]
    rfl

theorem drop_past (a rest : Str) (c : UInt8) : (a ++ c :: rest).drop (a.length + 1) = rest := by
  rw [← List.drop_drop, List.drop_left]
  rfl

theorem pair_cuts {a : Str} (clear : 58 ∉ a) (b rest : Str) (c : UInt8) :
    colonBefore (a ++ 58 :: b ++ c :: rest) (a ++ 58 :: b).length = some a.length ∧
      (a ++ 58 :: b ++ c :: rest).take a.length = a ∧
      ((a ++ 58 :: b ++ c :: rest).drop (a.length + 1)).take b.length = b ∧
      (a ++ 58 :: b).length - (a.length + 1) = b.length := by
  have length : (a ++ 58 :: b).length = a.length + 1 + b.length := by
    simp only [List.length_append, List.length_cons]
    omega
  rw [List.append_assoc]
  apply And.intro (colonBefore_append clear (by omega))
  apply And.intro List.take_left
  apply And.intro
  · rw [List.cons_append, drop_past]
    exact List.take_left
  · omega

theorem parseProtocol_render {a : Str} (plain : Plain a) (fits : a.length < 16) (rest : Str) (url : URL) :
    parseProtocol (a ++ [58, 47, 47] ++ rest) url = (some rest, { url with protocol := some a }) := by
  have found : strstr (a ++ [58, 47, 47] ++ rest) [58, 47, 47] = some a.length := by
    clear fits
    induction a with
    | nil => simp [strstr]
    | cons c tail ih =>
      have other := (plain c List.mem_cons_self).1
      rw [List.cons_append, List.cons_append, strstr,
        ih (fun d held => plain d (List.mem_cons_of_mem _ held))]
      simp [Ne.symm other]
  rw [parseProtocol, found]
  simp only
  rw [if_neg (by omega), List.append_assoc, List.take_left]
  congr 2
  rw [← List.drop_drop, List.drop_left]
  rfl

theorem parseUser_none {s : Str} (clear : 64 ∉ s) (url : URL) :
    parseUser s url = (some s, { url with username := some [], passwd := some [] }) := by
  rw [parseUser, strchr_none clear]

theorem parseUser_alone {a : Str} (noAt : 64 ∉ a) (noColon : 58 ∉ a) (rest : Str) (url : URL) :
    parseUser (a ++ 64 :: rest) url =
      if a.length ≥ 16 then (none, url)
        else (some rest, { url with username := some a, passwd := some [] }) := by
  rw [parseUser, strchr_append noAt]
  simp only [colonBefore_none noColon]
  rw [List.take_left, drop_past]

theorem parseUser_pair {a b : Str} (noColon : 58 ∉ a) (noAt : 64 ∉ a ++ 58 :: b) (rest : Str) (url : URL) :
    parseUser (a ++ 58 :: b ++ 64 :: rest) url =
      if a.length ≥ 16 then (none, url)
      else if b.length ≥ 16 then (none, { url with username := some a })
      else (some rest, { url with username := some a, passwd := some b }) := by
  obtain ⟨colon, first, second, width⟩ := pair_cuts noColon b rest 64
  rw [parseUser, strchr_append noAt]
  simp only [colon]
  rw [width, first, second, drop_past]

theorem parseHost_none {s : Str} (clear : 47 ∉ s) (url : URL) : parseHost s url = (none, url) := by
  rw [parseHost, strchr_none clear]

theorem parseHost_pair {a b : Str} (noColon : 58 ∉ a) (noSlash : 47 ∉ a ++ 58 :: b) (rest : Str) (url : URL) :
    parseHost (a ++ 58 :: b ++ 47 :: rest) url =
      if a.length ≥ 32 then (none, url)
      else if b.length ≥ 8 then (none, { url with hostname := some a })
      else match atob b 10 with
        | none => (none, { url with hostname := some a })
        | some port => (some rest, { url with hostname := some a, port := some (port % 2^16) }) := by
  obtain ⟨colon, first, second, width⟩ := pair_cuts noColon b rest 47
  rw [parseHost, strchr_append noSlash]
  simp only [colon]
  rw [width, first, second, drop_past]

namespace Parts

variable {p : Parts}

theorem service_clear (c : UInt8) (colon : c ≠ 58) (digit : ¬ (48 ≤ c ∧ c ≤ 57)) : c ∉ p.service := by
  unfold service
  rcases p.port with _ | n
  · exact List.not_mem_nil
  · intro held
    rcases List.mem_cons.mp held with same | held
    · exact colon same
    · exact digit (decimal_chars held)

theorem Fits.host_long (fits : p.Fits) {n : Nat} (there : p.port = some n) (long : 10 ^ 7 ≤ n) (url : URL) :
    (parseHost (p.host ++ p.service ++ 47 :: p.path) url).1 = none := by
  have noColon : 58 ∉ p.host := fun held => (fits.host.1 _ held).1 rfl
  have noSlash : 47 ∉ p.host := fun held => (fits.host.1 _ held).2.2 rfl
  have small := fits.host.2
  have slash := service_clear (p := p) 47 (by decide) (by decide)
  have many := (decimal_length_iff n 7).mpr long
  unfold service at slash ⊢
  rw [there] at slash ⊢
  simp only
  rw [parseHost_pair noColon (by simp only [List.mem_append]; exact fun held => held.elim noSlash slash),
    if_neg (by omega), if_pos (by omega)]

def Clear (p : Parts) : Prop := p.user.isSome ∨ 64 ∉ p.path

theorem Fits.user_read (fits : p.Fits) (clear : p.Clear) (url : URL) :
    parseUser (p.login ++ (p.host ++ p.service ++ 47 :: p.path)) url =
      (some (p.host ++ p.service ++ 47 :: p.path),
        { url with
          username := some (p.user.elim [] Prod.fst), passwd := some ((p.user.bind Prod.snd).getD []) }) := by
  have hostAt : 64 ∉ p.host := fun held => (fits.host.1 _ held).2.1 rfl
  have serviceAt := service_clear (p := p) 64 (by decide) (by decide)
  unfold login
  rcases there : p.user with _ | ⟨user, _ | passwd⟩
  · have pathAt : 64 ∉ p.path := clear.resolve_left (by rw [there]; exact Bool.false_ne_true)
    rw [List.nil_append, parseUser_none (by simp [hostAt, serviceAt, pathAt])]
    rfl
  · obtain ⟨plain, small⟩ := fits.username user none there
    simp only [List.append_assoc, List.singleton_append]
    rw [parseUser_alone (fun held => (plain _ held).2.1 rfl) (fun held => (plain _ held).1 rfl),
      if_neg (by omega)]
    rfl
  · obtain ⟨plain, small⟩ := fits.username user (some passwd) there
    obtain ⟨plain', small'⟩ := fits.passwd user passwd there
    have noAt : 64 ∉ user ++ 58 :: passwd := by
      simp only [List.mem_append, List.mem_cons]
      rintro (held | same | held)
      · exact (plain _ held).2.1 rfl
      · exact absurd same (by decide)
      · exact (plain' _ held).2.1 rfl
    simp only
    rw [List.append_assoc _ [64], List.singleton_append,
      parseUser_pair (fun held => (plain _ held).1 rfl) noAt,
      if_neg (by omega), if_neg (by omega)]
    rfl

theorem Fits.refused (fits : p.Fits) (clear : p.Clear) {n : Nat} (there : p.port = some n)
    (long : 10 ^ 7 ≤ n) :
    (urlParse (some p.render)).1 = -1 := by
  have none := fits.host_long there long
  simp only [urlParse, render, parseProtocol_render fits.protocol.1 fits.protocol.2, fits.user_read clear]
  split
  · rfl
  · rename_i rest url there
    have taken := (congrArg Prod.fst there).symm.trans (none _)
    cases taken

end Parts

def HostRefused (s : Str) : Prop :=
  47 ∉ s ∨ ∃ a b rest, s = a ++ 58 :: b ++ 47 :: rest ∧ 58 ∉ a ∧ 47 ∉ a ++ 58 :: b ∧
    (8 ≤ b.length ∨ atob b 10 = none)

theorem HostRefused.none {s : Str} (refused : HostRefused s) (url : URL) : (parseHost s url).1 = none := by
  rcases refused with none | ⟨a, b, rest, rfl, noColon, noSlash, bad⟩
  · rw [parseHost_none none]
  · rw [parseHost_pair noColon noSlash]
    split
    · rfl
    · split
      · rfl
      · rw [bad.resolve_left ‹_›]

section

variable {s : Str} {url : URL}

end

def before (d : UInt8) (s : Str) : Str := s.takeWhile (· ≠ d)

def behind (d : UInt8) (s : Str) : Str := (s.dropWhile (· ≠ d)).drop 1

def login (s : Str) : Str := if 64 ∈ s then before 64 s else []

section

variable {s a b : Str} {d : UInt8}

end

namespace Parts

variable {p : Parts}

def Answers (p : Parts) : Prop :=
  if p.port.getD 0 < 2^16 then urlParse (some p.render) = (0, p.url) else (urlParse (some p.render)).1 = -1

def MisreadRefused (p : Parts) : Prop :=
  ∃ front back, p.path = front ++ 64 :: back ∧ 64 ∉ front ∧
    (16 ≤ p.host.length ∨ 16 ≤ (decimal (p.port.getD 0) ++ 47 :: front).length ∨ HostRefused back)

def Safe (p : Parts) : Prop :=
  if p.port.getD 0 < 2^16 then p.Clear
  else (p.Clear ∧ 10 ^ 7 ≤ p.port.getD 0) ∨ (¬ p.Clear ∧ p.MisreadRefused)

/-- `tftp://h/a@b` -/
def pathAt : Parts := ⟨[116, 102, 116, 112], none, [104], none, [97, 64, 98]⟩

end Parts

end Embryo.Lib
