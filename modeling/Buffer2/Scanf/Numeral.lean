import Buffer2.Scanf.Basic

/-!
This module contains the integers in C notation, with their text and their value, and the proof that
`%i` reads exactly these.
-/

namespace Scanf

theorem le_toNat_of_isDigit {base : Nat} {c : Char} (hbase : base ≤ 16) (h : isDigit base c = true) :
    48 ≤ c.toNat := by
  simp only [isDigit, digitVal, Char.reduceToNat, decide_eq_true_eq] at h
  split at h
  . omega
  . split at h
    . omega
    . split at h
      . omega
      . omega

theorem ne_x_of_isDigit {base : Nat} {c : Char} (hbase : base ≤ 16) (h : isDigit base c = true) :
    c ≠ 'x' ∧ c ≠ 'X' := by
  simp only [isDigit, decide_eq_true_eq] at h
  constructor
  . rintro rfl
    have hval : digitVal 'x' = 16 := by decide
    omega
  . rintro rfl
    have hval : digitVal 'X' = 16 := by decide
    omega

theorem toNat_le_of_isspace {c : Char} (h : isspace c = true) : c.toNat ≤ 32 := by
  simp only [isspace, Bool.or_eq_true, decide_eq_true_eq, Bool.and_eq_true] at h
  cases h with
  | inl h =>
    rw [h]
    decide
  | inr h => omega

theorem isspace_eq_false {c : Char} (h : 33 ≤ c.toNat) : isspace c = false := by
  rw [Bool.eq_false_iff]
  intro hspace
  have := toNat_le_of_isspace hspace
  omega

inductive Sign
  | none
  | plus
  | minus
  deriving DecidableEq

namespace Sign

def text (sign : Sign) : List Char :=
  match sign with
  | .none => []
  | .plus => ['+']
  | .minus => ['-']

def negative (sign : Sign) : Bool :=
  match sign with
  | .minus => true
  | _ => false

end Sign

inductive Radix
  | decimal
  | octal
  | hex
  | upperHex
  deriving DecidableEq

namespace Radix

def base (radix : Radix) : Nat :=
  match radix with
  | .decimal => 10
  | .octal => 8
  | .hex | .upperHex => 16

def text (radix : Radix) : List Char :=
  match radix with
  | .decimal | .octal => []
  | .hex => ['0', 'x']
  | .upperHex => ['0', 'X']

def Leads (radix : Radix) (c : Char) : Prop :=
  match radix with
  | .decimal => c ≠ '0'
  | .octal => c = '0'
  | .hex | .upperHex => True

theorem base_le (radix : Radix) : radix.base ≤ 16 := by
  cases radix <;> decide

end Radix

/--
An integer in C notation. `lead` is its first digit.
-/
structure Numeral where
  sign : Sign
  radix : Radix
  lead : Char
  digits : List Char
  valid : ∀ c ∈ lead :: digits, isDigit radix.base c = true
  leads : radix.Leads lead

namespace Numeral

def magnitude (n : Numeral) : Nat := ofDigits n.radix.base (n.lead :: n.digits)

def value (n : Numeral) : Int := if n.sign.negative then -n.magnitude else n.magnitude

def text (n : Numeral) : List Char := n.sign.text ++ (n.radix.text ++ n.lead :: n.digits)

end Numeral

/--
What follows a number does not go on with it.
-/
def Stops (rest : List Char) : Prop :=
  ∀ c ∈ rest.head?, isDigit 16 c = false ∧ c ≠ 'x' ∧ c ≠ 'X'

theorem stops_nil : Stops [] := by
  simp [Stops]

theorem isDigit_mono {base : Nat} {c : Char} (hbase : base ≤ 16) (h : isDigit 16 c = false) :
    isDigit base c = false := by
  simp only [isDigit, decide_eq_false_iff_not] at *
  omega

section Span

variable {p : Char → Bool} {s rest : List Char}

theorem takeWhile_append_stop (hs : ∀ c ∈ s, p c = true) (hrest : ∀ c ∈ rest.head?, p c = false) :
    (s ++ rest).takeWhile p = s := by
  rw [List.takeWhile_append_of_pos hs]
  cases rest with
  | nil => simp
  | cons c rest =>
    have hc : p c = false := by
      apply hrest
      simp
    simp [hc]

theorem dropWhile_append_stop (hs : ∀ c ∈ s, p c = true) (hrest : ∀ c ∈ rest.head?, p c = false) :
    (s ++ rest).dropWhile p = rest := by
  rw [List.dropWhile_append_of_pos hs]
  cases rest with
  | nil => simp
  | cons c rest =>
    have hc : p c = false := by
      apply hrest
      simp
    simp [hc]

end Span

section Scan

variable {s rest : List Char}

theorem scanSign_append {sign : Sign} (hs : ∀ c ∈ s.head?, 48 ≤ c.toNat) :
    scanSign (sign.text ++ s) = (sign.negative, s) := by
  cases sign with
  | plus => rfl
  | minus => rfl
  | none =>
    show scanSign s = (false, s)
    unfold scanSign
    split
    . have := hs '-' rfl
      contradiction
    . have := hs '+' rfl
      contradiction
    . rfl

theorem exists_of_scanSign {negative : Bool} (h : scanSign s = (negative, rest)) :
    ∃ sign : Sign, s = sign.text ++ rest ∧ sign.negative = negative := by
  unfold scanSign at h
  split at h
  . cases h
    exact ⟨.minus, rfl, rfl⟩
  . cases h
    exact ⟨.plus, rfl, rfl⟩
  . cases h
    exact ⟨.none, rfl, rfl⟩

theorem scanRadix_append {radix : Radix} {lead : Char} (hlead : radix.Leads lead)
    (hs : ∀ c ∈ s.head?, c ≠ 'x' ∧ c ≠ 'X') :
    scanRadix (radix.text ++ lead :: s) = (radix.base, lead :: s) := by
  cases radix with
  | hex => rfl
  | upperHex => rfl
  | decimal =>
    show scanRadix (lead :: s) = (10, lead :: s)
    unfold scanRadix
    split
    . next heq =>
      cases heq
      exact absurd rfl hlead
    . next heq =>
      cases heq
      exact absurd rfl hlead
    . next heq =>
      cases heq
      exact absurd rfl hlead
    . rfl
  | octal =>
    have hzero : lead = '0' := hlead
    subst hzero
    show scanRadix ('0' :: s) = (8, '0' :: s)
    unfold scanRadix
    split
    . next heq =>
      cases heq
      exact absurd rfl (hs _ rfl).1
    . next heq =>
      cases heq
      exact absurd rfl (hs _ rfl).2
    . next heq =>
      cases heq
      rfl
    . next hnot =>
      exact absurd rfl (hnot s)

theorem exists_of_scanRadix {base : Nat} (h : scanRadix s = (base, rest)) :
    ∃ radix : Radix, s = radix.text ++ rest ∧ radix.base = base ∧ ∀ c ∈ rest.head?, radix.Leads c := by
  unfold scanRadix at h
  split at h
  . cases h
    exact ⟨.hex, rfl, rfl, fun _ _ => trivial⟩
  . cases h
    exact ⟨.upperHex, rfl, rfl, fun _ _ => trivial⟩
  . cases h
    refine ⟨.octal, rfl, rfl, ?_⟩
    intro c hc
    cases hc
    rfl
  . next hhex hupper hnot =>
    cases h
    refine ⟨.decimal, rfl, rfl, ?_⟩
    rintro c hc rfl
    obtain ⟨t, ht⟩ := List.head?_eq_some_iff.mp hc
    exact hnot t ht

end Scan

theorem Sign.ge_of_mem_text {sign : Sign} : ∀ c ∈ sign.text, 33 ≤ c.toNat := by
  cases sign <;> exact List.all_iff_forall_prop.mp (by decide)

theorem Radix.ge_of_mem_text {radix : Radix} : ∀ c ∈ radix.text, 48 ≤ c.toNat := by
  cases radix <;> exact List.all_iff_forall_prop.mp (by decide)

namespace Numeral

theorem ge_of_mem_digits (n : Numeral) : ∀ c ∈ n.lead :: n.digits, 48 ≤ c.toNat := by
  intro c hc
  apply le_toNat_of_isDigit
  . exact n.radix.base_le
  . exact n.valid c hc

theorem ge_of_mem_text {n : Numeral} {c : Char} (hc : c ∈ n.text) : 33 ≤ c.toNat := by
  simp only [text, List.mem_append] at hc
  rcases hc with hc | hc | hc
  . exact Sign.ge_of_mem_text c hc
  . have := Radix.ge_of_mem_text c hc
    omega
  . have := n.ge_of_mem_digits c hc
    omega

theorem text_ne_nil (n : Numeral) : n.text ≠ [] := by
  simp [text]

end Numeral

theorem scanItem_text {n : Numeral} {rest : List Char} (hrest : Stops rest) :
    scanItem (n.text ++ rest) = .item n.value rest := by
  have hdigits : ∀ c ∈ n.lead :: n.digits, isDigit n.radix.base c = true := n.valid
  have hstop : ∀ c ∈ rest.head?, isDigit n.radix.base c = false := by
    intro c hc
    apply isDigit_mono n.radix.base_le
    exact (hrest c hc).1
  have hnext : ∀ c ∈ (n.digits ++ rest).head?, c ≠ 'x' ∧ c ≠ 'X' := by
    intro c hc
    rw [List.head?_append, Option.mem_def, Option.or_eq_some_iff] at hc
    cases hc with
    | inl hc =>
      apply ne_x_of_isDigit n.radix.base_le
      apply n.valid
      exact List.mem_cons_of_mem _ (List.mem_of_head? hc)
    | inr hc => exact (hrest c hc.2).2
  have hsign : scanSign (n.text ++ rest) =
      (n.sign.negative, n.radix.text ++ n.lead :: (n.digits ++ rest)) := by
    have hge : ∀ c ∈ (n.radix.text ++ n.lead :: (n.digits ++ rest)).head?, 48 ≤ c.toNat := by
      intro c hc
      rw [List.head?_append, Option.mem_def, Option.or_eq_some_iff] at hc
      cases hc with
      | inl hc => exact Radix.ge_of_mem_text c (List.mem_of_head? hc)
      | inr hc =>
        cases hc.2
        exact n.ge_of_mem_digits _ List.mem_cons_self
    rw [← scanSign_append hge]
    simp [Numeral.text]
  unfold scanItem
  rw [hsign]
  simp only
  rw [scanRadix_append n.leads hnext]
  simp only
  rw [← List.cons_append]
  rw [takeWhile_append_stop hdigits hstop]
  rw [dropWhile_append_stop hdigits hstop]
  simp [Numeral.value, Numeral.magnitude]

theorem exists_of_scanItem {s rest : List Char} {v : Int} (h : scanItem s = .item v rest) :
    ∃ n : Numeral, s = n.text ++ rest ∧ n.value = v := by
  obtain ⟨negative, t, hsign⟩ : ∃ negative t, scanSign s = (negative, t) := ⟨_, _, rfl⟩
  obtain ⟨base, u, hradix⟩ : ∃ base u, scanRadix t = (base, u) := ⟨_, _, rfl⟩
  unfold scanItem at h
  rw [hsign] at h
  simp only [hradix] at h
  split at h
  . cases h
  . next hne =>
    obtain ⟨sign, rfl, rfl⟩ := exists_of_scanSign hsign
    obtain ⟨radix, rfl, rfl, hleads⟩ := exists_of_scanRadix hradix
    obtain ⟨lead, digits, hds⟩ := List.exists_cons_of_ne_nil hne
    have hspan := List.takeWhile_append_dropWhile (p := isDigit radix.base) (l := u)
    rw [hds] at hspan h
    cases h
    have hvalid : ∀ c ∈ lead :: digits, isDigit radix.base c = true := by
      rw [← hds]
      intro c hc
      exact List.mem_takeWhile_imp hc
    have hlead : radix.Leads lead := by
      apply hleads
      rw [← hspan, List.cons_append, List.head?_cons]
      apply Option.mem_some_self
    refine ⟨⟨sign, radix, lead, digits, hvalid, hlead⟩, ?_, rfl⟩
    simp only [Numeral.text, List.append_assoc, List.cons_append]
    rw [← List.cons_append]
    rw [hspan]

theorem scanInt_text {ws rest : List Char} {n : Numeral} (hws : ∀ c ∈ ws, isspace c = true)
    (hrest : Stops rest) : scanInt (ws ++ (n.text ++ rest)) = .item n.value rest := by
  obtain ⟨c, t, htext⟩ := List.exists_cons_of_ne_nil n.text_ne_nil
  have hskip : (ws ++ (n.text ++ rest)).dropWhile isspace = c :: (t ++ rest) := by
    rw [dropWhile_append_stop hws]
    . rw [htext]
      rfl
    . rw [htext]
      intro d hd
      cases hd
      apply isspace_eq_false
      apply n.ge_of_mem_text
      rw [htext]
      exact List.mem_cons_self
  unfold scanInt
  rw [hskip]
  simp only
  rw [← scanItem_text hrest]
  rw [htext]
  rfl

theorem exists_of_scanInt {s rest : List Char} {v : Int} (h : scanInt s = .item v rest) :
    ∃ (ws : List Char) (n : Numeral), s = ws ++ (n.text ++ rest) ∧ (∀ c ∈ ws, isspace c = true) ∧
      n.value = v := by
  unfold scanInt at h
  split at h
  . cases h
  . next c t hskip =>
    obtain ⟨n, htext, hvalue⟩ := exists_of_scanItem h
    refine ⟨s.takeWhile isspace, n, ?_, ?_, hvalue⟩
    . rw [← htext, ← hskip]
      exact List.takeWhile_append_dropWhile.symm
    . intro d hd
      exact List.mem_takeWhile_imp hd

end Scanf
