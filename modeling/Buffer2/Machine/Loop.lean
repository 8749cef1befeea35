/-!
This module contains loops that a program runs in many small steps: each iteration makes some size
smaller, or the call that the loop belongs to returns.
-/

/--
`head` holds at the test of the condition of the loop, `body` everywhere behind it. `returned` counts
the calls that have returned.
-/
structure Loop (π : Type) where
  head : π → Prop
  body : π → Prop
  size : π → Nat
  returned : π → Nat
  disjoint (p : π) : head p → ¬ body p

namespace Loop

variable {π : Type} {L : Loop π}

inductive Step (L : Loop π) (p p' : π) : Prop
  | outside (hhead : ¬ L.head p) (hbody : ¬ L.body p) (hreturned : L.returned p' = L.returned p)
  | body (hbody : L.head p ∨ L.body p) (hbody' : L.body p') (hsize : L.size p' = L.size p)
      (hreturned : L.returned p' = L.returned p)
  | again (hbody : L.body p) (hhead : L.head p') (hsize : L.size p' < L.size p)
      (hreturned : L.returned p' = L.returned p)
  | ret (hbody : L.head p ∨ L.body p) (hreturned : L.returned p' = L.returned p + 1)

inductive Since (L : Loop π) (p₀ : π) (moved : Prop) (p : π) : Prop
  | returned (h : L.returned p₀ < L.returned p)
  | start (hmoved : ¬ moved) (h : p = p₀)
  | body (hbody : L.body p) (hsize : L.size p ≤ L.size p₀) (hreturned : L.returned p = L.returned p₀)
  | head (hhead : L.head p) (hsize : L.size p < L.size p₀) (hreturned : L.returned p = L.returned p₀)

variable {p₀ p p' : π} {moved moved' : Prop}

theorem Since.step (h₀ : L.head p₀) (h : L.Since p₀ moved p) (hstep : L.Step p p') :
    L.Since p₀ moved' p' := by
  cases h with
  | returned hlt =>
    apply Since.returned
    cases hstep <;> omega
  | start _ heq =>
    subst heq
    cases hstep with
    | outside hhead => exact absurd h₀ hhead
    | body _ hbody' hsize hreturned => exact .body hbody' (Nat.le_of_eq hsize) hreturned
    | again hbody => exact absurd hbody (L.disjoint _ h₀)
    | ret _ hreturned => exact .returned (by omega)
  | body hbody hle hsame =>
    cases hstep with
    | outside _ hnot => exact absurd hbody hnot
    | body _ hbody' hsize hreturned => exact .body hbody' (by omega) (by omega)
    | again _ hhead hsize hreturned => exact .head hhead (by omega) (by omega)
    | ret _ hreturned => exact .returned (by omega)
  | head hhead hlt hsame =>
    cases hstep with
    | outside hnot => exact absurd hhead hnot
    | body _ hbody' hsize hreturned => exact .body hbody' (by omega) (by omega)
    | again hbody => exact absurd hbody (L.disjoint _ hhead)
    | ret _ hreturned => exact .returned (by omega)

theorem Since.size_lt (h : L.Since p₀ moved p) (hmoved : moved) (hhead : L.head p)
    (hreturned : L.returned p = L.returned p₀) : L.size p < L.size p₀ := by
  cases h with
  | returned hlt => omega
  | start hnot => exact absurd hmoved hnot
  | body hbody => exact absurd hbody (L.disjoint _ hhead)
  | head _ hlt => exact hlt

end Loop
