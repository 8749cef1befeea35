import Buffer2.Machine.Basic

/-!
This module contains the ideal queue: an unbounded first-in first-out sequence to whose end a writer
appends and from whose front a reader removes.
-/

namespace Queue

variable {β : Type}

inductive Op (β : Type)
  | push (xs : List β)
  | pop (n : Nat)

def machine (β : Type) : Machine (List β) (Op β) (List β) where
  step q op :=
    match op with
    | .push xs => some (q ++ xs, xs)
    | .pop n => if n ≤ q.length then some (q.drop n, q.take n) else none

def pushed (tr : List (Op β × List β)) : List β :=
  tr.flatMap fun x =>
    match x.1 with
    | .push _ => x.2
    | .pop _ => []

def popped (tr : List (Op β × List β)) : List β :=
  tr.flatMap fun x =>
    match x.1 with
    | .push _ => []
    | .pop _ => x.2

@[simp]
theorem machine_push (q xs : List β) : (machine β).step q (.push xs) = some (q ++ xs, xs) := rfl

theorem machine_pop {q : List β} {n : Nat} (h : n ≤ q.length) :
    (machine β).step q (.pop n) = some (q.drop n, q.take n) := by
  simp [machine, h]

theorem conservation {G : List β → Op β → Prop} {q q' : List β} {tr : List (Op β × List β)}
    (h : (machine β).Runs G q tr q') : q ++ pushed tr = popped tr ++ q' := by
  induction h with
  | nil => simp [pushed, popped]
  | @cons q _ _ op e tr _ hstep _ ih =>
    cases op with
    | push xs =>
      simp only [machine_push, Option.some.injEq, Prod.mk.injEq] at hstep
      obtain ⟨rfl, rfl⟩ := hstep
      simpa [pushed, popped] using ih
    | pop n =>
      simp only [machine, Option.ite_none_right_eq_some, Option.some.injEq, Prod.mk.injEq] at hstep
      obtain ⟨_, rfl, rfl⟩ := hstep
      have hq : q ++ pushed tr = q.take n ++ (q.drop n ++ pushed tr) := by
        rw [← List.append_assoc, List.take_append_drop]
      simp only [pushed, popped, List.flatMap_cons, List.nil_append, List.append_assoc] at ih hq ⊢
      rw [hq, ih]

end Queue
