import Embryo.Machine.CString

namespace Embryo.Common

open Embryo.Machine

def nvar : Nat := 64

structure Envpair where
  name : Option Nat
  val : Option Nat
deriving DecidableEq, Repr

/-- The table `envar`, and the strings in the blocks that are allocated. Block numbers from `next` on
    have never been given out. -/
structure Env where
  envar : List Envpair
  blocks : Nat → Option Str
  next : Nat

namespace Env

def strdup (env : Env) (granted : Bool) (s : Str) : Option Nat × Env :=
  if granted then
    (some env.next, { env with blocks := Function.update env.blocks env.next (some s), next := env.next + 1 })
  else (none, env)

def release (env : Env) : Option Nat → Option Env
  | none => some env
  | some p =>
    if (env.blocks p).isSome then some { env with blocks := Function.update env.blocks p none } else none

def setPair (env : Env) (i : Nat) (e : Envpair) : Env := { env with envar := env.envar.set i e }

end Env

/-- The search of `_setenv`: the entry with the name, and the first entry without one. It faults where
    `strcmp` is given no string. -/
def search (blocks : Nat → Option Str) (name : Str) :
    List Envpair → Nat → Option Nat → Option (Option Nat × Option Nat)
  | [], _, ep => some (none, ep)
  | e :: rest, i, ep =>
    match e.name, ep with
    | none, none => search blocks name rest (i + 1) (some i)
    | none, some _ => none
    | some p, ep =>
      match blocks p with
      | none => none
      | some s => if s = name then some (some i, ep) else search blocks name rest (i + 1) ep

/-- `_setenv`, where `first` and `second` tell whether `malloc` grants its requests. -/
def setenv (env : Env) (name val : Str) (first second : Bool) : Option (Int × Env) :=
  match search env.blocks name env.envar 0 none with
  | none => none
  | some (some i, _) =>
    let e := env.envar.getD i ⟨none, none⟩
    match env.release e.val with
    | none => none
    | some env =>
      let (p, env) := env.strdup first val
      some (if p.isSome then 0 else -1, env.setPair i ⟨e.name, p⟩)
  | some (none, some i) =>
    let e := env.envar.getD i ⟨none, none⟩
    match env.strdup first name with
    | (none, env) => some (-1, env.setPair i ⟨none, e.val⟩)
    | (some p, env) =>
      match env.release e.val with
      | none => none
      | some env =>
        match env.strdup second val with
        | (some q, env) => some (0, env.setPair i ⟨some p, some q⟩)
        | (none, env) => (env.release (some p)).map fun env => (-1, env.setPair i ⟨some p, none⟩)
  | some (none, none) => some (-1, env)

namespace Env

def Binds (env : Env) (k v : Str) : Prop :=
  ∃ (i : Nat) (e : Envpair), env.envar[i]? = some e ∧ e.name.bind env.blocks = some k ∧
    e.val.bind env.blocks = some v

structure Wf (env : Env) : Prop where
  size : env.envar.length = nvar
  paired : ∀ e ∈ env.envar, e.name = none ↔ e.val = none
  names : ∀ e ∈ env.envar, ∀ p, e.name = some p → (env.blocks p).isSome
  vals : ∀ e ∈ env.envar, ∀ p, e.val = some p → (env.blocks p).isSome
  fresh : ∀ p, (env.blocks p).isSome → p < env.next
  distinct : ∀ (i j : Nat) (e f : Envpair), env.envar[i]? = some e → env.envar[j]? = some f → e.name ≠ none →
    e.name.bind env.blocks = f.name.bind env.blocks → i = j
  owned : ∀ (i j : Nat) (e f : Envpair), env.envar[i]? = some e → env.envar[j]? = some f → e.val ≠ none →
    e.val = f.val → i = j
  apart : ∀ e ∈ env.envar, ∀ f ∈ env.envar, e.name ≠ none → e.name ≠ f.val

def Intact (env : Env) : Prop :=
  ∀ e ∈ env.envar, ∀ p, e.name = some p ∨ e.val = some p → (env.blocks p).isSome

structure Answered (env : Env) (name val : Str) (first second : Bool) (ret : Int) (env' : Env) : Prop where
  done : ret = 0 → ∀ k v, env'.Binds k v ↔ if k = name then v = val else env.Binds k v
  failed : ret = -1 → ∀ k v, env'.Binds k v ↔ env.Binds k v
  either : ret = 0 ∨ ret = -1
  intact : env'.Intact
  full : ret = -1 → first = true → second = true → ∀ e ∈ env.envar, e.name ≠ none

def named (env : Env) (name : Str) (e : Envpair) : Bool := e.name.bind env.blocks == some name

def Searchable (env : Env) (name : Str) : Prop :=
  ((env.envar.takeWhile (!env.named name ·)).countP (·.name.isNone)) ≤ 1

instance (env : Env) (name : Str) : Decidable (env.Searchable name) := inferInstanceAs (Decidable (_ ≤ _))

def Granted (env : Env) (name : Str) (first second : Bool) : Prop :=
  ((∃ v, env.Binds name v) → first = true) ∧
    ((¬ ∃ v, env.Binds name v) → (∃ e ∈ env.envar, e.name = none) → first = true → second = true)

end Env

section

variable {blocks : Nat → Option Str} {name : Str}

theorem search_none_iff {tab : List Envpair}
    (live : ∀ e ∈ tab, ∀ p, e.name = some p → (blocks p).isSome) (i : Nat)
    (ep : Option Nat) : search blocks name tab i ep = none ↔
      1 < (tab.takeWhile fun e => !(e.name.bind blocks == some name)).countP (·.name.isNone) +
        ep.toList.length := by
  induction tab generalizing i ep with
  | nil => cases ep <;> simp [search]
  | cons e rest ih =>
    have later : ∀ e ∈ rest, ∀ p, e.name = some p → (blocks p).isSome :=
      fun f member => live f (List.mem_cons_of_mem _ member)
    rcases called : e.name with _ | p
    · cases ep with
      | none =>
        simp only [search, called, ih later]
        simp [called]
      | some j =>
        simp only [search, called]
        simp [called]
    · obtain ⟨s, held⟩ := Option.isSome_iff_exists.mp (live e List.mem_cons_self p called)
      by_cases same : s = name
      · cases ep <;> simp [search, called, held, same]
      · simp only [search, called, held, same, if_false, ih later]
        simp [called, held, same]

theorem search_found {tab : List Envpair} {i k : Nat} {ep o : Option Nat}
    (found : search blocks name tab i ep = some (some k, o)) :
    ∃ j e, k = i + j ∧ tab[j]? = some e ∧ e.name.bind blocks = some name := by
  induction tab generalizing i ep with
  | nil => simp [search] at found
  | cons e rest ih =>
    have next : ∀ {ep'}, search blocks name rest (i + 1) ep' = some (some k, o) →
        ∃ j f, k = i + j ∧ (e :: rest)[j]? = some f ∧ f.name.bind blocks = some name := by
      intro ep' found
      obtain ⟨j, f, place, entry, called⟩ := ih found
      exact ⟨j + 1, f, by omega, entry, called⟩
    rcases called : e.name with _ | p
    · cases ep with
      | none =>
        simp only [search, called] at found
        exact next found
      | some j => simp [search, called] at found
    · rcases held : blocks p with _ | s
      · simp [search, called, held] at found
      · by_cases same : s = name
        · simp only [search, called, held, same, if_true, Option.some.injEq, Prod.mk.injEq] at found
          exact ⟨0, e, found.1.symm, rfl, by rw [called, Option.bind_some, held, same]⟩
        · simp only [search, called, held, same, if_false] at found
          exact next found

theorem search_missing {tab : List Envpair} {i : Nat} {ep o : Option Nat}
    (missing : search blocks name tab i ep = some (none, o)) :
    (∀ e ∈ tab, e.name.bind blocks ≠ some name) ∧
      ((o = ep ∧ ∀ e ∈ tab, e.name ≠ none) ∨ ∃ j e, o = some (i + j) ∧ tab[j]? = some e ∧ e.name = none) := by
  induction tab generalizing i ep with
  | nil =>
    simp only [search, Option.some.injEq, Prod.mk.injEq, true_and] at missing
    simp [missing]
  | cons e rest ih =>
    rcases called : e.name with _ | p
    · cases ep with
      | none =>
        simp only [search, called] at missing
        obtain ⟨other, free⟩ := ih missing
        refine ⟨List.forall_mem_cons.mpr ⟨by simp [called], other⟩, .inr ?_⟩
        rcases free with ⟨here, _⟩ | ⟨j, f, place, entry, empty⟩
        · exact ⟨0, e, here, rfl, called⟩
        · exact ⟨j + 1, f, by rw [place]; congr 1; omega, entry, empty⟩
      | some j => simp [search, called] at missing
    · rcases held : blocks p with _ | s
      · simp [search, called, held] at missing
      · by_cases same : s = name
        · simp [search, called, held, same] at missing
        · simp only [search, called, held, same, if_false] at missing
          obtain ⟨other, free⟩ := ih missing
          refine ⟨List.forall_mem_cons.mpr ⟨by simp [called, held, same], other⟩, ?_⟩
          rcases free with ⟨here, all⟩ | ⟨j, f, place, entry, empty⟩
          · exact .inl ⟨here, List.forall_mem_cons.mpr ⟨by simp [called], all⟩⟩
          · exact .inr ⟨j + 1, f, by rw [place]; congr 1; omega, entry, empty⟩

end

namespace Env

variable {env : Env} {name val : Str} {i : Nat}

/-- A binding by another entry than the `i`th. -/
def BindsElse (env : Env) (i : Nat) (k v : Str) : Prop :=
  ∃ (j : Nat) (e : Envpair), j ≠ i ∧ env.envar[j]? = some e ∧ e.name.bind env.blocks = some k ∧
    e.val.bind env.blocks = some v

theorem changed (inside : i < env.envar.length) (e' : Envpair) {blocks' : Nat → Option Str} (next' : Nat)
    (same : ∀ (j : Nat) (e : Envpair), j ≠ i → env.envar[j]? = some e →
      ∀ p, e.name = some p ∨ e.val = some p → blocks' p = env.blocks p) (k v : Str) :
    Binds ⟨env.envar.set i e', blocks', next'⟩ k v ↔
      (e'.name.bind blocks' = some k ∧ e'.val.bind blocks' = some v) ∨ env.BindsElse i k v := by
  have keep : ∀ (j : Nat) (e : Envpair), j ≠ i → env.envar[j]? = some e →
      e.name.bind blocks' = e.name.bind env.blocks ∧ e.val.bind blocks' = e.val.bind env.blocks := by
    intro j e other entry
    constructor
    · cases held : e.name with
      | none => rfl
      | some p => exact same j e other entry p (.inl held)
    · cases held : e.val with
      | none => rfl
      | some p => exact same j e other entry p (.inr held)
  constructor
  · intro ⟨j, f, entry, key, value⟩
    rw [List.getElem?_set] at entry
    by_cases here : i = j
    · subst here
      rw [if_pos rfl, if_pos inside, Option.some.injEq] at entry
      subst entry
      exact .inl ⟨key, value⟩
    · rw [if_neg here] at entry
      have both := keep j f (Ne.symm here) entry
      exact .inr ⟨j, f, Ne.symm here, entry, both.1.symm.trans key, both.2.symm.trans value⟩
  · rintro (⟨key, value⟩ | ⟨j, f, other, entry, key, value⟩)
    · refine ⟨i, e', ?_, key, value⟩
      rw [List.getElem?_set, if_pos rfl, if_pos inside]
    · have both := keep j f other entry
      refine ⟨j, f, ?_, both.1.trans key, both.2.trans value⟩
      rw [List.getElem?_set, if_neg (Ne.symm other)]
      exact entry

theorem binds_split {e : Envpair} (entry : env.envar[i]? = some e) (k v : Str) :
    env.Binds k v ↔ (e.name.bind env.blocks = some k ∧ e.val.bind env.blocks = some v) ∨
      env.BindsElse i k v := by
  have inside := (List.getElem?_eq_some_iff.mp entry).1
  have kept : env.envar.set i e = env.envar := by
    rw [← (List.getElem?_eq_some_iff.mp entry).2]
    exact List.set_getElem_self inside
  have all := @changed env i inside e env.blocks env.next (fun _ _ _ _ _ _ => rfl) k v
  rw [kept] at all
  exact all

theorem Wf.live (wf : env.Wf) {e : Envpair} (member : e ∈ env.envar) {p : Nat}
    (held : e.name = some p ∨ e.val = some p) :
    (env.blocks p).isSome ∧ p < env.next := by
  have live : (env.blocks p).isSome := by
    rcases held with held | held
    · exact wf.names e member p held
    · exact wf.vals e member p held
  exact ⟨live, wf.fresh p live⟩

theorem Wf.intact (wf : env.Wf) : env.Intact := fun _ member _ held => (wf.live member held).1

theorem Wf.changed_intact (wf : env.Wf) {e' : Envpair} {blocks' : Nat → Option Str} (next' : Nat)
    (same : ∀ (j : Nat) (e : Envpair), j ≠ i → env.envar[j]? = some e →
      ∀ p, e.name = some p ∨ e.val = some p → blocks' p = env.blocks p)
    (live : ∀ p, e'.name = some p ∨ e'.val = some p → (blocks' p).isSome) :
    Intact ⟨env.envar.set i e', blocks', next'⟩ := by
  intro f member p held
  obtain ⟨j, entry⟩ := List.mem_iff_getElem?.mp member
  rw [List.getElem?_set] at entry
  by_cases here : i = j
  · rw [if_pos here] at entry
    split at entry
    · rw [Option.some.injEq] at entry
      subst entry
      exact live p held
    · cases entry
  · rw [if_neg here] at entry
    show (blocks' p).isSome
    rw [same j f (Ne.symm here) entry p held]
    exact (wf.live (List.mem_of_getElem? entry) held).1

theorem setenv_found (wf : env.Wf) {o : Option Nat}
    (found : search env.blocks name env.envar 0 none = some (some i, o)) (first second : Bool) :
    ∃ e old, env.envar[i]? = some e ∧ e.name.bind env.blocks = some name ∧ e.val.bind env.blocks = some old ∧
      ∃ env', setenv env name val first second = some (if first then 0 else -1, env') ∧
        (∀ k v, env'.Binds k v ↔ (first = true ∧ k = name ∧ v = val) ∨ env.BindsElse i k v) ∧
          env'.Intact := by
  obtain ⟨j, e, place, entry, key⟩ := search_found found
  obtain rfl : i = j := by omega
  have inside := (List.getElem?_eq_some_iff.mp entry).1
  have member := List.mem_of_getElem? entry
  obtain ⟨q, named, held⟩ := Option.bind_eq_some_iff.mp key
  have valued : e.val ≠ none := by
    intro none'
    rw [(wf.paired e member).mpr none'] at named
    cases named
  obtain ⟨r, value⟩ := Option.ne_none_iff_exists'.mp valued
  obtain ⟨old, held'⟩ := Option.isSome_iff_exists.mp (wf.vals e member r value)
  have here : env.envar.getD i ⟨none, none⟩ = e := by
    rw [List.getD_eq_getElem?_getD, entry, Option.getD_some]
  have different : q ≠ r := by
    intro same
    apply wf.apart e member e member (by rw [named]; exact Option.some_ne_none q)
    rw [named, value, same]
  -- what the other entries point to is neither the old value nor a new block
  have others : ∀ (l : Nat) (f : Envpair), l ≠ i → env.envar[l]? = some f →
      ∀ p, f.name = some p ∨ f.val = some p → p ≠ r ∧ p ≠ env.next := by
    intro l f other entry' p points
    have below := (wf.live (List.mem_of_getElem? entry') points).2
    refine ⟨?_, by omega⟩
    rintro rfl
    rcases points with points | points
    · apply wf.apart f (List.mem_of_getElem? entry') e member (by rw [points]; exact Option.some_ne_none p)
      rw [points, value]
    · exact other (wf.owned l i f e entry' entry (by rw [points]; exact Option.some_ne_none p)
        (by rw [points, value]))
  have below := (wf.live member (.inl named)).2
  refine ⟨e, old, entry, key, by rw [value]; exact held', ?_⟩
  cases first with
  | true =>
    have kept : Function.update (Function.update env.blocks r none) env.next (some val) q = some name := by
      rw [Function.update_of_ne (by omega), Function.update_of_ne different]
      exact held
    have same : ∀ (j : Nat) (e : Envpair), j ≠ i → env.envar[j]? = some e → ∀ p, e.name = some p ∨
      e.val = some p →
        Function.update (Function.update env.blocks r none) env.next (some val) p = env.blocks p := by
      intro l f other entry' p points
      obtain ⟨old', new'⟩ := others l f other entry' p points
      rw [Function.update_of_ne new', Function.update_of_ne old']
    refine ⟨_, by
      simp only [setenv, found, here, value, release, held', Option.isSome_some, if_true, strdup]; rfl,
      ?_, ?_⟩
    · intro k v
      apply (changed inside ⟨e.name, some env.next⟩ (env.next + 1) same k v).trans
      simp only [named, Option.bind_some, Function.update_self, Option.some.injEq, true_and, kept]
      rw [@eq_comm _ name, @eq_comm _ val]
    · apply wf.changed_intact _ same
      rintro p (points | points)
      · have q' : p = q := Option.some.inj (points.symm.trans named)
        rw [q', kept]
        rfl
      · rw [← Option.some.inj points, Function.update_self]
        rfl
  | false =>
    have same : ∀ (j : Nat) (e : Envpair), j ≠ i → env.envar[j]? = some e → ∀ p, e.name = some p ∨
      e.val = some p →
        Function.update env.blocks r none p = env.blocks p := by
      intro l f other entry' p points
      rw [Function.update_of_ne (others l f other entry' p points).1]
    refine ⟨_, by
      simp only [setenv, found, here, value, release, held', Option.isSome_some, if_true, strdup]; rfl,
      ?_, ?_⟩
    · intro k v
      apply (changed inside ⟨e.name, none⟩ env.next same k v).trans
      simp
    · apply wf.changed_intact _ same
      rintro p (points | points)
      · have q' : p = q := Option.some.inj (points.symm.trans named)
        rw [q', Function.update_of_ne different, held]
        rfl
      · cases points

theorem free_entry (wf : env.Wf) (missing : search env.blocks name env.envar 0 none = some (none, some i)) :
    env.envar[i]? = some ⟨none, none⟩ ∧ env.envar.getD i ⟨none, none⟩ = ⟨none, none⟩ := by
  rcases (search_missing missing).2 with ⟨absurd', _⟩ | ⟨j, e, place, entry, empty⟩
  · cases absurd'
  · obtain rfl : i = j := by
      have := Option.some.inj place
      omega
    have void := (wf.paired e (List.mem_of_getElem? entry)).mp empty
    have pair : e = ⟨none, none⟩ := by
      obtain ⟨p, q⟩ := e
      simp only at empty void
      rw [empty, void]
    rw [pair] at entry
    refine ⟨entry, ?_⟩
    rw [List.getD_eq_getElem?_getD, entry, Option.getD_some]

theorem setenv_added (wf : env.Wf) (missing : search env.blocks name env.envar 0 none = some (none, some i)) :
    ∃ env', setenv env name val true true = some (0, env') ∧
      (∀ k v, env'.Binds k v ↔ (k = name ∧ v = val) ∨ env.Binds k v) ∧ env'.Intact := by
  obtain ⟨entry, here⟩ := free_entry wf missing
  have inside := (List.getElem?_eq_some_iff.mp entry).1
  have same : ∀ (j : Nat) (e : Envpair), j ≠ i → env.envar[j]? = some e → ∀ p, e.name = some p ∨
    e.val = some p →
      Function.update (Function.update env.blocks env.next (some name)) (env.next + 1) (some val) p =
        env.blocks p := by
    intro l f _ entry' p points
    have below := (wf.live (List.mem_of_getElem? entry') points).2
    rw [Function.update_of_ne (by omega), Function.update_of_ne (by omega)]
  have key : Function.update (Function.update env.blocks env.next (some name)) (env.next + 1)
    (some val) env.next =
      some name := by
    rw [Function.update_of_ne (by omega), Function.update_self]
  refine ⟨_, by simp only [setenv, missing, here, release, if_true, strdup]; rfl, ?_, ?_⟩
  · intro k v
    apply (changed inside ⟨some env.next, some (env.next + 1)⟩ (env.next + 2) same k v).trans
    rw [binds_split entry k v]
    simp only [Option.bind_some, Option.bind_none, Function.update_self, Option.some.injEq, key,
      reduceCtorEq, false_and, false_or]
    rw [@eq_comm _ name, @eq_comm _ val]
  · apply wf.changed_intact _ same
    rintro p (points | points)
    · rw [← Option.some.inj points, key]
      rfl
    · rw [← Option.some.inj points, Function.update_self]
      rfl

theorem setenv_refused (wf : env.Wf) (missing : search env.blocks name env.envar 0 none = some (none, some i))
    (second : Bool) : setenv env name val false second = some (-1, env) := by
  obtain ⟨entry, here⟩ := free_entry wf missing
  have same : env.envar.set i ⟨none, none⟩ = env.envar := by
    obtain ⟨inside, entry⟩ := List.getElem?_eq_some_iff.mp entry
    rw [← entry]
    exact List.set_getElem_self inside
  simp only [setenv, missing, here, strdup, Bool.false_eq_true, if_false, setPair, same]

theorem setenv_dangling (wf : env.Wf)
    (missing : search env.blocks name env.envar 0 none = some (none, some i)) :
    ∃ env', setenv env name val true false = some (-1, env') ∧ ¬ env'.Intact := by
  obtain ⟨entry, here⟩ := free_entry wf missing
  have inside := (List.getElem?_eq_some_iff.mp entry).1
  refine ⟨_, by
    simp only [setenv, missing, here, release, if_true, strdup, Bool.false_eq_true, if_false,
      Function.update_self, Option.isSome_some, Option.map_some]; rfl, ?_⟩
  intro intact
  have live := intact ⟨some env.next, none⟩ (List.mem_set inside _) env.next (.inl rfl)
  simp [setPair] at live

/-- A call on a table in order does what it owes exactly when its search comes to no second entry without
    a name and the block for the value is granted. -/
theorem answered_iff (wf : env.Wf) (name val : Str) (first second : Bool) :
    (∃ ret env', setenv env name val first second = some (ret, env') ∧
        Answered env name val first second ret env') ↔
      env.Searchable name ∧ env.Granted name first second := by
  have faults := @search_none_iff env.blocks name _ wf.names 0 none
  have searchable : env.Searchable name ↔ search env.blocks name env.envar 0 none ≠ none := by
    rw [ne_eq, faults, not_lt]
    rfl
  rw [searchable]
  rcases found : search env.blocks name env.envar 0 none with _ | ⟨_ | i, o⟩
  · simp [setenv, found]
  · obtain ⟨other, free⟩ := search_missing found
    have unbound : ¬ ∃ v, env.Binds name v := by
      intro ⟨v, j, e, entry, key, _⟩
      exact other e (List.mem_of_getElem? entry) key
    have apart : ∀ k v, env.Binds k v → k ≠ name := by
      rintro k v bound rfl
      exact unbound ⟨v, bound⟩
    cases o with
    | none =>
      have named : ∀ e ∈ env.envar, e.name ≠ none := by
        rcases free with ⟨_, all⟩ | ⟨j, e, place, _⟩
        · exact all
        · cases place
      have answer : setenv env name val first second = some (-1, env) := by simp only [setenv, found]
      constructor
      · intro _
        refine ⟨by simp, fun bound => absurd bound unbound, ?_⟩
        intro _ ⟨e, member, empty⟩
        exact absurd empty (named e member)
      · intro _
        exact ⟨-1, env, answer, ⟨fun no => absurd no (by decide), fun _ _ _ => Iff.rfl, .inr rfl, wf.intact,
          fun _ _ _ => named⟩⟩
    | some i =>
      have hole : ∃ e ∈ env.envar, e.name = none := by
        rcases free with ⟨none', _⟩ | ⟨j, e, _, entry, empty⟩
        · cases none'
        · exact ⟨e, List.mem_of_getElem? entry, empty⟩
      cases first with
      | false =>
        have answer := @setenv_refused env name val i wf found second
        constructor
        · intro _
          exact ⟨by simp, fun bound => absurd bound unbound, fun _ _ no => absurd no (by decide)⟩
        · intro _
          exact ⟨-1, env, answer, ⟨fun no => absurd no (by decide), fun _ _ _ => Iff.rfl, .inr rfl, wf.intact,
            fun _ no => absurd no (by decide)⟩⟩
      | true =>
        cases second with
        | false =>
          obtain ⟨env', answer, dangling⟩ := @setenv_dangling env name val i wf found
          constructor
          · intro ⟨ret, env'', answer', kept⟩
            rw [answer, Option.some.injEq, Prod.mk.injEq] at answer'
            rw [answer'.2] at dangling
            exact absurd kept.intact dangling
          · intro ⟨_, _, granted⟩
            exact absurd (granted unbound hole rfl) (by decide)
        | true =>
          obtain ⟨env', answer, binds, intact⟩ := @setenv_added env name val i wf found
          constructor
          · intro _
            exact ⟨by simp, fun _ => rfl, fun _ _ _ => rfl⟩
          · intro _
            refine ⟨0, env', answer, ⟨?_, fun no => absurd no (by decide), .inl rfl, intact,
          fun no => absurd no (by decide)⟩⟩
            intro _ k v
            rw [binds]
            by_cases same : k = name
            · rw [if_pos same]
              exact ⟨fun bound => bound.elim And.right fun bound => absurd same (apart k v bound),
                fun bound => .inl ⟨same, bound⟩⟩
            · rw [if_neg same]
              simp [same]
  · obtain ⟨e, old, entry, key, value, env', answer, binds, intact⟩ :=
      @setenv_found env name val i wf o found first second
    have bound : ∃ v, env.Binds name v := ⟨old, i, e, entry, key, value⟩
    have elsewhere : ∀ k v, env.BindsElse i k v ↔ k ≠ name ∧ env.Binds k v := by
      intro k v
      constructor
      · intro ⟨j, f, other, entry', key', value'⟩
        refine ⟨?_, j, f, entry', key', value'⟩
        rintro rfl
        have named : f.name ≠ none := by
          intro none'
          rw [none'] at key'
          cases key'
        exact other (wf.distinct j i f e entry' entry named (key'.trans key.symm))
      · intro ⟨different, here⟩
        rcases (binds_split entry k v).mp here with ⟨key', _⟩ | there
        · exact absurd (Option.some.inj (key'.symm.trans key)) different
        · exact there
    cases first with
    | false =>
      constructor
      · intro ⟨ret, env'', answer', kept⟩
        simp only [Bool.false_eq_true, if_false] at answer
        rw [answer, Option.some.injEq, Prod.mk.injEq] at answer'
        obtain ⟨rfl, rfl⟩ := answer'
        have lost := (kept.failed rfl name old).mpr ⟨i, e, entry, key, value⟩
        rw [binds, elsewhere] at lost
        simp at lost
      · intro ⟨_, granted, _⟩
        exact absurd (granted bound) (by decide)
    | true =>
      constructor
      · intro _
        exact ⟨by simp, fun _ => rfl, fun unbound => absurd bound unbound⟩
      · intro _
        refine ⟨0, env', answer, ⟨?_, fun no => absurd no (by decide), .inl rfl, intact,
          fun no => absurd no (by decide)⟩⟩
        intro _ k v
        rw [binds, elsewhere]
        by_cases same : k = name
        · simp [same]
        · simp [same]

structure Call where
  name : Str
  val : Str
  first : Bool
  second : Bool

def AllAnswered : Env → List Call → Prop
  | _, [] => True
  | env, c :: rest => ∃ ret env', setenv env c.name c.val c.first c.second = some (ret, env') ∧
      Answered env c.name c.val c.first c.second ret env' ∧ AllAnswered env' rest

def empty : Env := ⟨List.replicate nvar ⟨none, none⟩, fun _ => none, 1⟩

theorem empty_get {i : Nat} {e : Envpair} (entry : empty.envar[i]? = some e) : e = ⟨none, none⟩ := by
  have member := List.mem_of_getElem? entry
  exact List.eq_of_mem_replicate member

theorem empty_wf : empty.Wf where
  size := List.length_replicate
  paired := by
    intro e member
    rw [List.eq_of_mem_replicate member]
  names := by
    intro e member p held
    rw [List.eq_of_mem_replicate member] at held
    cases held
  vals := by
    intro e member p held
    rw [List.eq_of_mem_replicate member] at held
    cases held
  fresh := by
    intro p live
    cases live
  distinct := by
    intro i j e f entry _ named
    rw [empty_get entry] at named
    exact absurd rfl named
  owned := by
    intro i j e f entry _ valued
    rw [empty_get entry] at valued
    exact absurd rfl valued
  apart := by
    intro e member f _ named
    rw [List.eq_of_mem_replicate member] at named
    exact absurd rfl named

theorem empty_unsearchable (name : Str) : ¬ empty.Searchable name := by
  have all : empty.envar.takeWhile (!empty.named name ·) = empty.envar := by
    rw [List.takeWhile_eq_self_iff]
    intro e member
    rw [List.eq_of_mem_replicate member]
    rfl
  unfold Searchable
  rw [all]
  decide

/-- From the empty table the very first search compares with a name that is not there. On any table
    in order a call does what it owes exactly when its search does not, and the block for the value
    is granted. -/
theorem setenv_answers_iff (calls : List Call) (env : Env) (wf : env.Wf) (c : Call) :
    (AllAnswered empty calls ↔ calls = []) ∧
      ((∃ ret env', setenv env c.name c.val c.first c.second = some (ret, env') ∧
          Answered env c.name c.val c.first c.second ret env') ↔
        env.Searchable c.name ∧ env.Granted c.name c.first c.second) := by
  refine ⟨?_, answered_iff wf c.name c.val c.first c.second⟩
  cases calls with
  | nil => simp [AllAnswered]
  | cons c rest =>
    simp only [AllAnswered, reduceCtorEq, iff_false]
    intro ⟨ret, env', call, answered, _⟩
    have both := (answered_iff empty_wf c.name c.val c.first c.second).mp ⟨ret, env', call, answered⟩
    exact empty_unsearchable c.name both.1

def single : Env :=
  ⟨⟨some 1, some 2⟩ :: List.replicate 63 ⟨none, none⟩, fun p => if p = 1 then some [97]
    else if p = 2 then some [98] else none, 3⟩

theorem single_get {i : Nat} {e : Envpair} (entry : single.envar[i]? = some e) :
    (i = 0 ∧ e = ⟨some 1, some 2⟩) ∨ e = ⟨none, none⟩ := by
  cases i with
  | zero => exact .inl ⟨rfl, (Option.some.inj entry).symm⟩
  | succ i =>
    exact .inr (List.eq_of_mem_replicate (List.mem_of_getElem?
      (show (List.replicate 63 _)[i]? = some e from entry)))

theorem single_mem {e : Envpair} (member : e ∈ single.envar) : e = ⟨some 1, some 2⟩ ∨ e = ⟨none, none⟩ := by
  obtain ⟨i, entry⟩ := List.mem_iff_getElem?.mp member
  exact (single_get entry).imp And.right id

theorem single_wf : single.Wf where
  size := rfl
  paired := by
    intro e member
    rcases single_mem member with rfl | rfl <;> simp
  names := by
    intro e member p held
    rcases single_mem member with rfl | rfl
    · rw [← Option.some.inj held]
      rfl
    · cases held
  vals := by
    intro e member p held
    rcases single_mem member with rfl | rfl
    · rw [← Option.some.inj held]
      rfl
    · cases held
  fresh := by
    intro p live
    simp only [single] at live ⊢
    by_contra far
    rw [if_neg (by omega), if_neg (by omega)] at live
    cases live
  distinct := by
    intro i j e f entry entry' named same
    rcases single_get entry with ⟨rfl, rfl⟩ | rfl
    · rcases single_get entry' with ⟨rfl, rfl⟩ | rfl
      · rfl
      · cases same
    · exact absurd rfl named
  owned := by
    intro i j e f entry entry' valued same
    rcases single_get entry with ⟨rfl, rfl⟩ | rfl
    · rcases single_get entry' with ⟨rfl, rfl⟩ | rfl
      · rfl
      · cases same
    · exact absurd rfl valued
  apart := by
    intro e member f member' named
    rcases single_mem member with rfl | rfl
    · rcases single_mem member' with rfl | rfl <;> simp
    · exact absurd rfl named

theorem single_updated : ∃ ret env', setenv single [97] [99] true true = some (ret, env') ∧
    Answered single [97] [99] true true ret env' := by
  apply (setenv_answers_iff [] single single_wf ⟨[97], [99], true, true⟩).2.mpr
  exact ⟨by decide, fun _ => rfl, fun _ _ _ => rfl⟩

/-- The first call ever. -/
theorem first_call_faults : setenv empty [97] [98] true true = none := by decide +kernel

end Env

end Embryo.Common
