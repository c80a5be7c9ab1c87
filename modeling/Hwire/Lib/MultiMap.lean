import Mathlib.Data.List.Perm.Basic
import Mathlib.Data.List.Nodup
import Mathlib.Tactic

/-!
# Insertion-ordered multimaps

A key holds one or more values, in the order they were appended. Keys are visited in the order of first
insertion, except that removing a key moves the last key into its place.
-/

namespace Hwire.Lib

structure MultiMap (K V : Type) where
  entries : List (K × List V)
  keys_nodup : (entries.map Prod.fst).Nodup
  values_ne_nil : ∀ e ∈ entries, e.2 ≠ []

namespace MultiMap

variable {K V : Type} [DecidableEq K]

instance [DecidableEq V] : DecidableEq (MultiMap K V) := fun a b =>
  decidable_of_iff (a.entries = b.entries) (by cases a; cases b; simp)

/-- Remove the entry of `k` and put the last entry in its place. -/
def swapRemove (k : K) : List (K × List V) → List (K × List V)
  | [] => []
  | e :: rest =>
    if e.1 = k then
      match rest.getLast? with
      | none => []
      | some last => last :: rest.dropLast
    else e :: swapRemove k rest

theorem swapRemove_perm (k : K) (l : List (K × List V)) :
    (swapRemove k l).Perm (l.eraseP (fun e => e.1 = k)) := by
  induction l with
  | nil => simp [swapRemove]
  | cons e rest ih =>
    unfold swapRemove
    split
    · next h =>
      rw [List.eraseP_cons_of_pos (by simpa using h)]
      cases hl : rest.getLast? with
      | none => simp [List.getLast?_eq_none_iff.mp hl]
      | some last =>
        have : rest.dropLast ++ [last] = rest := List.dropLast_append_getLast? last hl
        calc (last :: rest.dropLast).Perm (rest.dropLast ++ [last]) := List.perm_append_singleton _ _ |>.symm
          _ = rest := this
    · next h =>
      rw [List.eraseP_cons_of_neg (by simpa using h)]
      exact ih.cons e

def setValues (k : K) (f : List V → List V) (l : List (K × List V)) : List (K × List V) :=
  l.map fun e => if e.1 = k then (e.1, f e.2) else e

theorem setValues_keys (k : K) (f : List V → List V) (l : List (K × List V)) :
    (setValues k f l).map Prod.fst = l.map Prod.fst := by
  simp only [setValues, List.map_map]
  apply List.map_congr_left
  intro e _
  simp only [Function.comp_apply]
  split <;> rfl

omit [DecidableEq K] in
theorem lookup_cons_of_ne [BEq K] [LawfulBEq K] {k n : K} {vs : List V} {l : List (K × List V)}
    (h : k ≠ n) : ((n, vs) :: l).lookup k = l.lookup k := by
  rw [List.lookup_cons, beq_false_of_ne h]

theorem lookup_setValues (k k' : K) (f : List V → List V) (l : List (K × List V)) :
    (setValues k f l).lookup k' = if k' = k then (l.lookup k').map f else l.lookup k' := by
  induction l with
  | nil => simp [setValues]
  | cons e rest ih =>
    obtain ⟨n, vs⟩ := e
    simp only [setValues, List.map_cons] at ih ⊢
    by_cases hn : n = k
    · subst hn
      by_cases hk : k' = n
      · subst hk; simp
      · rw [if_pos rfl, if_neg hk, lookup_cons_of_ne hk, lookup_cons_of_ne hk, ih, if_neg hk]
    · rw [if_neg hn]
      by_cases hk : k' = n
      · subst hk; simp [hn]
      · rw [lookup_cons_of_ne hk, lookup_cons_of_ne hk, ih]

theorem lookup_eq_some_iff_mem {k : K} {vs : List V} {l : List (K × List V)}
    (nodup : (l.map Prod.fst).Nodup) : l.lookup k = some vs ↔ (k, vs) ∈ l := by
  induction l with
  | nil => simp
  | cons e rest ih =>
    obtain ⟨n, ws⟩ := e
    simp only [List.map_cons, List.nodup_cons] at nodup
    by_cases hk : k = n
    · subst hk
      simp only [List.lookup_cons_self, Option.some.injEq, List.mem_cons, Prod.mk.injEq, true_and]
      constructor
      · intro h
        exact Or.inl h.symm
      · rintro (h | h)
        · exact h.symm
        · exact absurd (List.mem_map_of_mem (f := Prod.fst) h) nodup.1
    · rw [lookup_cons_of_ne hk, ih nodup.2]
      simp [hk]

theorem eraseP_keys_nodup {k : K} {l : List (K × List V)} (nodup : (l.map Prod.fst).Nodup) :
    ((l.eraseP fun e => e.1 = k).map Prod.fst).Nodup :=
  nodup.sublist ((List.eraseP_sublist).map _)

theorem lookup_eraseP {k k' : K} {l : List (K × List V)} (nodup : (l.map Prod.fst).Nodup) :
    (l.eraseP fun e => e.1 = k).lookup k' = if k' = k then none else l.lookup k' := by
  induction l with
  | nil => simp
  | cons e rest ih =>
    obtain ⟨n, ws⟩ := e
    simp only [List.map_cons, List.nodup_cons] at nodup
    by_cases hn : n = k
    · rw [List.eraseP_cons_of_pos (by simpa using hn)]
      by_cases hk : k' = k
      · subst hn hk
        simp only [if_true, List.lookup_eq_none_iff]
        intro p hp
        have : p.1 ≠ k' := fun e => nodup.1 (e ▸ List.mem_map_of_mem (f := Prod.fst) hp)
        simpa using this.symm
      · rw [if_neg hk, lookup_cons_of_ne (by rw [hn]; exact hk)]
    · rw [List.eraseP_cons_of_neg (by simpa using hn)]
      by_cases hk : k' = n
      · subst hk; simp [hn]
      · rw [lookup_cons_of_ne hk, lookup_cons_of_ne hk, ih nodup.2]

/-! ### Operations -/

def empty : MultiMap K V := ⟨[], by simp, by simp⟩

instance : Inhabited (MultiMap K V) := ⟨empty⟩

def getAll (m : MultiMap K V) (k : K) : List V := (m.entries.lookup k).getD []

def get (m : MultiMap K V) (k : K) : Option V := (m.getAll k).head?

def contains (m : MultiMap K V) (k : K) : Bool := (m.entries.lookup k).isSome

/-- Every key with its values, the way a traversal visits them. -/
def iter (m : MultiMap K V) : List (K × V) := m.entries.flatMap fun e => e.2.map fun v => (e.1, v)

/-- All fields by value, where a key stands only with the first of its values. -/
def intoIter (m : MultiMap K V) : List (Option K × V) :=
  m.entries.flatMap fun e =>
    match e.2 with
    | [] => []
    | v :: vs => (some e.1, v) :: vs.map fun v => (none, v)

/-- Put `f` of the values of `k`, or `[v]` at the end when `k` is new. -/
def alter (m : MultiMap K V) (k : K) (v : V) (f : List V → List V) (keeps : ∀ vs, vs ≠ [] → f vs ≠ []) :
    MultiMap K V where
  entries := if m.contains k then setValues k f m.entries else m.entries ++ [(k, [v])]
  keys_nodup := by
    split
    · rw [setValues_keys]; exact m.keys_nodup
    · next h =>
      rw [List.map_append, List.nodup_append]
      refine ⟨m.keys_nodup, by simp, ?_⟩
      simp only [contains, Bool.not_eq_true, Option.isSome_eq_false_iff, Option.isNone_iff_eq_none,
        List.lookup_eq_none_iff] at h
      intro n hn b hb
      obtain ⟨e, he, rfl⟩ := List.mem_map.mp hn
      simp only [List.map_cons, List.map_nil, List.mem_singleton] at hb
      subst hb
      exact Ne.symm (by simpa using h e he)
  values_ne_nil := by
    intro e he
    split at he
    · obtain ⟨e', he', rfl⟩ := List.mem_map.mp he
      split
      · exact keeps _ (m.values_ne_nil _ he')
      · exact m.values_ne_nil _ he'
    · rcases List.mem_append.mp he with he | he
      · exact m.values_ne_nil _ he
      · simp [List.mem_singleton.mp he]

def insert (m : MultiMap K V) (k : K) (v : V) : MultiMap K V := m.alter k v (fun _ => [v]) (by simp)

def append (m : MultiMap K V) (k : K) (v : V) : MultiMap K V := m.alter k v (fun vs => vs ++ [v]) (by simp)

/-- Change the last value of `k`, or insert `v` when there is none. -/
def modifyLast (m : MultiMap K V) (k : K) (v : V) (f : V → V) : MultiMap K V :=
  m.alter k v
    (fun vs => match vs.getLast? with
      | none => [v]
      | some last => vs.dropLast ++ [f last])
    (by intro vs _; split <;> simp)

def remove (m : MultiMap K V) (k : K) : MultiMap K V where
  entries := swapRemove k m.entries
  keys_nodup :=
    ((swapRemove_perm k m.entries).map Prod.fst).nodup_iff.mpr (eraseP_keys_nodup m.keys_nodup)
  values_ne_nil := by
    intro e he
    exact m.values_ne_nil e (List.mem_of_mem_eraseP ((swapRemove_perm k m.entries).mem_iff.mp he))

/-! ### What a lookup sees -/

@[simp] theorem getAll_empty (k : K) : (empty : MultiMap K V).getAll k = [] := rfl

theorem contains_iff (m : MultiMap K V) (k : K) : m.contains k = true ↔ m.getAll k ≠ [] := by
  unfold contains getAll
  cases h : m.entries.lookup k with
  | none => simp
  | some vs =>
    have := m.values_ne_nil _ ((lookup_eq_some_iff_mem m.keys_nodup).mp h)
    simpa using this

theorem contains_eq_false (m : MultiMap K V) (k : K) : m.contains k = false ↔ m.getAll k = [] := by
  rw [← Bool.not_eq_true, contains_iff, not_not]

theorem getAll_alter (m : MultiMap K V) (k k' : K) (v : V) (f : List V → List V)
    (keeps : ∀ vs, vs ≠ [] → f vs ≠ []) :
    (m.alter k v f keeps).getAll k' =
      if k' = k then (if m.contains k then f (m.getAll k) else [v]) else m.getAll k' := by
  unfold getAll alter
  by_cases hc : m.contains k
  · simp only [hc, if_true, lookup_setValues]
    split
    · next h =>
      subst h
      obtain ⟨vs, hvs⟩ := Option.isSome_iff_exists.mp hc
      simp [hvs]
    · rfl
  · simp only [hc, if_false, Bool.false_eq_true, List.lookup_append]
    split
    · next h =>
      subst h
      have absent : m.entries.lookup k' = none := by
        rw [← Option.not_isSome_iff_eq_none]; exact hc
      simp [absent]
    · next h => rw [lookup_cons_of_ne h, List.lookup_nil, Option.or_none]

@[simp] theorem getAll_insert (m : MultiMap K V) (k k' : K) (v : V) :
    (m.insert k v).getAll k' = if k' = k then [v] else m.getAll k' := by
  rw [insert, getAll_alter]
  simp

@[simp] theorem getAll_append (m : MultiMap K V) (k k' : K) (v : V) :
    (m.append k v).getAll k' = if k' = k then m.getAll k ++ [v] else m.getAll k' := by
  rw [append, getAll_alter]
  split
  · split
    · rfl
    · next h => simp [(contains_eq_false m k).mp (by simpa using h)]
  · rfl

@[simp] theorem getAll_remove (m : MultiMap K V) (k k' : K) :
    (m.remove k).getAll k' = if k' = k then [] else m.getAll k' := by
  have perm := swapRemove_perm k m.entries
  have nodup := eraseP_keys_nodup (k := k) m.keys_nodup
  have same : (swapRemove k m.entries).lookup k' = (m.entries.eraseP fun e => e.1 = k).lookup k' := by
    apply Option.ext
    intro vs
    rw [lookup_eq_some_iff_mem ((perm.map Prod.fst).nodup_iff.mpr nodup), lookup_eq_some_iff_mem nodup,
      perm.mem_iff]
  unfold getAll remove
  simp only [same, lookup_eraseP m.keys_nodup]
  split <;> rfl

theorem swapRemove_of_absent {k : K} {l : List (K × List V)} (absent : ∀ e ∈ l, e.1 ≠ k) : swapRemove k l = l := by
  induction l with
  | nil => rfl
  | cons e rest ih =>
    obtain ⟨other, later⟩ := List.forall_mem_cons.mp absent
    rw [swapRemove, if_neg other, ih later]

theorem remove_of_absent {m : MultiMap K V} {k : K} (absent : m.contains k = false) : m.remove k = m := by
  have others : ∀ e ∈ m.entries, e.1 ≠ k := by
    rw [contains, Option.isSome_eq_false_iff, Option.isNone_iff_eq_none, List.lookup_eq_none_iff] at absent
    intro e member same
    have differs := absent e member
    rw [same] at differs
    simp at differs
  have same := swapRemove_of_absent others
  cases m
  simp only [remove, same]

theorem getAll_foldl_remove (names : List K) (m : MultiMap K V) (k : K) :
    (names.foldl remove m).getAll k = if k ∈ names then [] else m.getAll k := by
  induction names generalizing m with
  | nil => simp
  | cons name names ih =>
    rw [List.foldl_cons, ih, getAll_remove]
    by_cases same : k = name
    · simp [same]
    · simp [same]

theorem getAll_modifyLast (m : MultiMap K V) (k k' : K) (v : V) (f : V → V) :
    (m.modifyLast k v f).getAll k' =
      if k' = k then (match (m.getAll k).getLast? with
        | none => [v]
        | some last => (m.getAll k).dropLast ++ [f last]) else m.getAll k' := by
  rw [modifyLast, getAll_alter]
  split
  · split
    · rfl
    · next h => simp [(contains_eq_false m k).mp (by simpa using h)]
  · rfl

theorem values_entries {l : List (K × List V)} (nodup : (l.map Prod.fst).Nodup) (k : K) :
    ((l.flatMap fun e => e.2.map fun v => (e.1, v)).filterMap fun f => if f.1 = k then some f.2 else none) =
      (l.lookup k).getD [] := by
  induction l with
  | nil => rfl
  | cons e rest ih =>
    obtain ⟨key, values⟩ := e
    rw [List.map_cons, List.nodup_cons] at nodup
    rw [List.flatMap_cons, List.filterMap_append, ih nodup.2, List.filterMap_map]
    by_cases same : key = k
    · subst same
      have absent : rest.lookup key = none := by
        rw [List.lookup_eq_none_iff]
        intro e member
        have other : key ≠ e.1 := by
          rintro rfl
          exact nodup.1 (List.mem_map.mpr ⟨e, member, rfl⟩)
        simpa using other
      simp [absent]
    · have skip : values.filterMap ((fun f : K × V => if f.1 = k then some f.2 else none) ∘ fun v => (key, v)) = [] := by
        rw [List.filterMap_eq_nil_iff]
        intro v _
        simp [same]
      rw [skip, List.nil_append, lookup_cons_of_ne (fun h => same h.symm)]

/-- Going through the map finds the values of a key in their order. -/
theorem filterMap_iter (m : MultiMap K V) (k : K) :
    (m.iter.filterMap fun f => if f.1 = k then some f.2 else none) = m.getAll k := values_entries m.keys_nodup k

end MultiMap

end Hwire.Lib
