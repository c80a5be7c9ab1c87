import Mathlib.Data.List.Perm.Basic
import Mathlib.Data.List.Nodup
import Mathlib.Data.List.Range
import Mathlib.Logic.Relation
import Mathlib.Tactic

/-!
# Ledgers of tickets

Every item that a queue accepts gets a ticket. A ticket is in the queue, or it is held by whoever took the item out, or
it has been settled; and an item that a settlement hands back has never been used.
-/

namespace Hwire.Lib

/-- `R` is the type of settlements. -/
structure Ledger (T R : Type) where
  queue : List (Nat × T) := []
  held : List Nat := []
  settled : List (Nat × R) := []
  used : List Nat := []
  accepted : Nat := 0

namespace Ledger

variable {T R : Type} {handsBack : R → Prop}

/-- The moves of a ledger, where `handsBack` says which settlements return the item. -/
inductive Move (handsBack : R → Prop) (l : Ledger T R) : Ledger T R → Prop where
  | accept (item : T) :
      Move handsBack l { l with queue := l.queue ++ [(l.accepted, item)], accepted := l.accepted + 1 }
  | take {id : Nat} {item : T} {rest : List (Nat × T)} (front : l.queue = (id, item) :: rest) :
      Move handsBack l { l with queue := rest, held := id :: l.held }
  | use {id : Nat} (holds : id ∈ l.held) : Move handsBack l { l with used := l.used ++ [id] }
  | settle {id : Nat} {r : R} {held : List Nat} (holds : l.held.Perm (id :: held)) (keeps : ¬ handsBack r) :
      Move handsBack l { l with held, settled := l.settled ++ [(id, r)] }
  | handBack {id : Nat} {item : T} {r : R} {rest : List (Nat × T)} (front : l.queue = (id, item) :: rest) :
      Move handsBack l { l with queue := rest, settled := l.settled ++ [(id, r)] }

abbrev Moves (handsBack : R → Prop) : Ledger T R → Ledger T R → Prop := Relation.ReflTransGen (Move handsBack)

/-- All tickets, wherever they are. -/
def tickets (l : Ledger T R) : List Nat := l.queue.map Prod.fst ++ l.held ++ l.settled.map Prod.fst

/-- Every ticket that was given out is in one place, and a used item is held or was not handed back. -/
structure Balanced (handsBack : R → Prop) (l : Ledger T R) : Prop where
  once : l.tickets.Perm (List.range l.accepted)
  used : ∀ id ∈ l.used, id ∈ l.held ∨ ∃ r, (id, r) ∈ l.settled ∧ ¬ handsBack r

theorem Balanced.empty : Balanced handsBack ({} : Ledger T R) := ⟨by simp [tickets], by simp⟩

theorem Balanced.nodup {l : Ledger T R} (h : l.Balanced handsBack) : l.tickets.Nodup :=
  h.once.nodup_iff.mpr List.nodup_range

theorem Move.balanced {l l' : Ledger T R} (move : Move handsBack l l') (h : l.Balanced handsBack) :
    l'.Balanced handsBack := by
  obtain ⟨once, used⟩ := h
  simp only [tickets] at once
  cases move with
  | accept item =>
    refine ⟨?_, used⟩
    simp only [tickets, List.map_append, List.map_cons, List.map_nil, List.range_succ]
    have swap : (l.queue.map Prod.fst ++ [l.accepted] ++ l.held ++ l.settled.map Prod.fst).Perm
        (l.queue.map Prod.fst ++ l.held ++ l.settled.map Prod.fst ++ [l.accepted]) := by
      have comm : ([l.accepted] ++ (l.held ++ l.settled.map Prod.fst)).Perm
          ((l.held ++ l.settled.map Prod.fst) ++ [l.accepted]) := List.perm_append_comm
      simpa only [List.append_assoc] using comm.append_left (l.queue.map Prod.fst)
    exact swap.trans (once.append_right _)
  | @take id item rest front =>
    refine ⟨?_, fun i member => (used i member).imp_left (List.mem_cons_of_mem _)⟩
    rw [front] at once
    simp only [tickets]
    refine List.Perm.trans ?_ once
    rw [List.append_assoc, List.append_assoc]
    exact List.perm_middle
  | use holds =>
    refine ⟨once, ?_⟩
    intro i member
    rcases List.mem_append.mp member with old | new
    · exact used i old
    · exact .inl (List.mem_singleton.mp new ▸ holds)
  | @settle id r held holds keeps =>
    refine ⟨?_, ?_⟩
    · simp only [tickets, List.map_append, List.map_cons, List.map_nil]
      refine List.Perm.trans ?_ once
      rw [List.append_assoc, List.append_assoc]
      refine List.Perm.append_left _ ?_
      have moved : (held ++ (l.settled.map Prod.fst ++ [id])).Perm ((id :: held) ++ l.settled.map Prod.fst) := by
        rw [← List.append_assoc]
        exact List.perm_append_comm
      exact moved.trans (holds.symm.append_right _)
    · intro i member
      rcases used i member with before | ⟨r', settled, kept⟩
      · rcases List.mem_cons.mp (holds.mem_iff.mp before) with rfl | still
        · exact .inr ⟨r, by simp, keeps⟩
        · exact .inl still
      · exact .inr ⟨r', List.mem_append_left _ settled, kept⟩
  | @handBack id item r rest front =>
    refine ⟨?_, ?_⟩
    · rw [front] at once
      simp only [tickets, List.map_append, List.map_cons, List.map_nil]
      refine List.Perm.trans ?_ once
      rw [← List.append_assoc]
      exact List.perm_append_comm
    · intro i member
      rcases used i member with held | ⟨r', settled, kept⟩
      · exact .inl held
      · exact .inr ⟨r', List.mem_append_left _ settled, kept⟩

theorem Moves.balanced {l l' : Ledger T R} (moves : Moves handsBack l l') (h : l.Balanced handsBack) :
    l'.Balanced handsBack := by
  induction moves with
  | refl => exact h
  | tail _ move ih => exact move.balanced ih

/-! ### What a balanced ledger says -/

theorem Balanced.settled_once {l : Ledger T R} (h : l.Balanced handsBack) {id : Nat} {r r' : R}
    (one : (id, r) ∈ l.settled) (other : (id, r') ∈ l.settled) : r = r' := by
  have nodup : (l.settled.map Prod.fst).Nodup := (List.nodup_append.mp h.nodup).2.1
  exact (Prod.mk.inj (List.inj_on_of_nodup_map nodup one other rfl)).2

/-- An item that was handed back was never used. -/
theorem Balanced.unused {l : Ledger T R} (h : l.Balanced handsBack) {id : Nat} {r : R} (settled : (id, r) ∈ l.settled)
    (back : handsBack r) : id ∉ l.used := by
  intro member
  rcases h.used id member with held | ⟨r', settled', kept⟩
  · have disjoint := (List.nodup_append.mp h.nodup).2.2
    exact disjoint id (List.mem_append_right _ held) id (List.mem_map.mpr ⟨_, settled, rfl⟩) rfl
  · exact kept (h.settled_once settled settled' ▸ back)

end Ledger

end Hwire.Lib
