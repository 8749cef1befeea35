import Mathlib.Data.Bool.AllAny
import Mathlib.Data.List.TakeWhile
import Mathlib.Algebra.Order.Field.Rat
import Buffer2.Rounding.Double

/-!
This module contains the strings of C and the conversions of `sscanf` as C99 has them, for a target
where `int`, `long` and `size_t` have 32 bits. A number that is scanned for a `double` is exact, it is for
the conversion to round it.
-/

def nul : Char := Char.ofNat 0

/--
The characters of a string up to the one that ends it. The string is an object of the target, so its
size is a `size_t`.
-/
@[ext]
structure CString where
  chars : List Char
  nonzero : ∀ c ∈ chars, c ≠ nul
  fits : chars.length + 1 < 2 ^ 32
  deriving DecidableEq

namespace CString

def strlen (s : CString) : Nat := s.chars.length

def charAt (s : CString) (i : Nat) : Char := s.chars.getD i nul

def strchr (s : CString) (c : Char) : Option Nat := s.chars.idxOf? c

def drop (s : CString) (n : Nat) : CString where
  chars := s.chars.drop n
  nonzero c hc := s.nonzero c (List.mem_of_mem_drop hc)
  fits := by
    have := s.fits
    rw [List.length_drop]
    omega

/--
The string after its character `i` has been overwritten with 0.
-/
def cut (s : CString) (i : Nat) : CString where
  chars := s.chars.take i
  nonzero c hc := s.nonzero c (List.mem_of_mem_take hc)
  fits := by
    have := s.fits
    rw [List.length_take]
    omega

def toString (s : CString) : String := String.ofList s.chars

end CString

namespace Scanf

def isspace (c : Char) : Bool := c = ' ' || (9 ≤ c.toNat && c.toNat ≤ 13)

def digitVal (c : Char) : Nat :=
  let n := c.toNat
  if '0'.toNat ≤ n ∧ n ≤ '9'.toNat then
    n - '0'.toNat
  else if 'a'.toNat ≤ n ∧ n ≤ 'f'.toNat then
    n - 'a'.toNat + 10
  else if 'A'.toNat ≤ n ∧ n ≤ 'F'.toNat then
    n - 'A'.toNat + 10
  else
    16

def isDigit (base : Nat) (c : Char) : Bool := digitVal c < base

def ofDigits (base : Nat) (ds : List Char) : Nat := ds.foldl (fun n c => base * n + digitVal c) 0

/--
How a conversion ends: the input ends before it, the input item does not match, or it matches and
`rest` is left of the input.
-/
inductive Scanned (α : Type)
  | inputFailure
  | matchingFailure
  | item (value : α) (rest : List Char)
  deriving DecidableEq

def scanSign (s : List Char) : Bool × List Char :=
  match s with
  | '-' :: s => (true, s)
  | '+' :: s => (false, s)
  | s => (false, s)

def scanRadix (s : List Char) : Nat × List Char :=
  match s with
  | '0' :: 'x' :: s => (16, s)
  | '0' :: 'X' :: s => (16, s)
  | '0' :: s => (8, '0' :: s)
  | s => (10, s)

/--
The longest text at the start of `s` that an integer in C notation can start with.
-/
def scanItem (s : List Char) : Scanned Int :=
  let (negative, s) := scanSign s
  let (base, s) := scanRadix s
  let ds := s.takeWhile (isDigit base)
  if ds = [] then
    .matchingFailure
  else
    let n : Int := ofDigits base ds
    .item (if negative then -n else n) (s.dropWhile (isDigit base))

def scanInt (s : List Char) : Scanned Int :=
  match s.dropWhile isspace with
  | [] => .inputFailure
  | c :: s => scanItem (c :: s)

def longMin : Int := -2 ^ 31

def longMax : Int := 2 ^ 31 - 1

def strtol (n : Int) : Int := max longMin (min n longMax)

def scanExponent (mark : Char) (s : List Char) : Option (Int × List Char) :=
  match s with
  | [] => some (0, [])
  | c :: t =>
    if c.toLower = mark then
      let (negative, t) := scanSign t
      let ds := t.takeWhile (isDigit 10)
      if ds = [] then
        none
      else
        let n : Int := ofDigits 10 ds
        some (if negative then -n else n, t.dropWhile (isDigit 10))
    else
      some (0, c :: t)

def scanFraction (base : Nat) (s : List Char) : List Char × List Char :=
  match s with
  | '.' :: t => (t.takeWhile (isDigit base), t.dropWhile (isDigit base))
  | _ => ([], s)

def scanMantissa (base : Nat) (mark : Char) (unit : Nat) (negative : Bool) (s : List Char) :
    Scanned Double :=
  let whole := s.takeWhile (isDigit base)
  let (fraction, s) := scanFraction base (s.dropWhile (isDigit base))
  if whole ++ fraction = [] then
    .matchingFailure
  else
    match scanExponent mark s with
    | none => .matchingFailure
    | some (e, rest) =>
      let q : Rat := ofDigits base (whole ++ fraction) / (base : Rat) ^ fraction.length * (unit : Rat) ^ e
      .item (.rat (if negative then -q else q)) rest

/--
The number of characters of `s` that agree with `word` but for the case.
-/
def agree (word s : List Char) : Nat :=
  match word, s with
  | w :: word, c :: s => if c.toLower = w then agree word s + 1 else 0
  | _, _ => 0

def infinity : List Char := ['i', 'n', 'f', 'i', 'n', 'i', 't', 'y']

def isNChar (c : Char) : Bool := c.isAlphanum || c = '_'

def scanNan (s : List Char) : Scanned Double :=
  match s with
  | '(' :: t =>
    match t.dropWhile isNChar with
    | ')' :: rest => .item .nan rest
    | _ => .matchingFailure
  | rest => .item .nan rest

def scanDouble (s : List Char) : Scanned Double :=
  match s.dropWhile isspace with
  | [] => .inputFailure
  | s =>
    let (negative, s) := scanSign s
    let n := agree infinity s
    if n = 3 ∨ n = 8 then
      .item (.inf negative) (s.drop n)
    else if n ≠ 0 then
      .matchingFailure
    else if agree ['n', 'a', 'n'] s = 3 then
      scanNan (s.drop 3)
    else
      match scanRadix s with
      | (16, t) => scanMantissa 16 'p' 2 negative t
      | _ => scanMantissa 10 'e' 10 negative s

/--
The directives of a format. The conversions come with the assignment to the variable that the caller
passes for them.
-/
inductive Directive (σ : Type)
  | literal (c : Char)
  | int (bits : Nat) (store : Int → σ → σ)
  | double (store : Double → σ → σ)
  | string (width : Nat) (store : List Char → σ → σ)
  | count (store : Nat → σ → σ)

def eof : Int := -1

def sscanfGo {σ : Type} (src : CString) (fmt : List (Directive σ)) (s : List Char) (n : Nat) (vars : σ) :
    Int × σ :=
  -- An input failure counts as `EOF` only before the first conversion.
  let ended : Int := if n = 0 then eof else n
  match fmt with
  | [] => (n, vars)
  | .literal c :: fmt =>
    match s with
    | [] => (ended, vars)
    | d :: t => if d = c then sscanfGo src fmt t n vars else (n, vars)
  | .int bits store :: fmt =>
    match scanInt s with
    | .inputFailure => (ended, vars)
    | .matchingFailure => (n, vars)
    | .item v rest => sscanfGo src fmt rest (n + 1) (store (Int.bmod (strtol v) (2 ^ bits)) vars)
  | .double store :: fmt =>
    match scanDouble s with
    | .inputFailure => (ended, vars)
    | .matchingFailure => (n, vars)
    | .item x rest => sscanfGo src fmt rest (n + 1) (store x vars)
  | .string width store :: fmt =>
    match s.dropWhile isspace with
    | [] => (ended, vars)
    | t =>
      let item := (t.take width).takeWhile fun c => !isspace c
      sscanfGo src fmt (t.drop item.length) (n + 1) (store item vars)
  | .count store :: fmt => sscanfGo src fmt s n (store (src.strlen - s.length) vars)

def sscanf {σ : Type} (src : CString) (fmt : List (Directive σ)) (vars : σ) : Int × σ :=
  sscanfGo src fmt src.chars 0 vars

def Directive.Matches {σ : Type} (d : Directive σ) (s : List Char) : Prop :=
  match d with
  | .int _ _ => ∃ v rest, scanInt s = .item v rest
  | .double _ => ∃ x rest, scanDouble s = .item x rest
  | _ => True

theorem sscanf_of_not_matches {σ : Type} {src : CString} {c : Char} {d : Directive σ}
    {fmt : List (Directive σ)} (vars : σ) (h : ∀ s, src.chars = c :: s → ¬ d.Matches s) :
    (sscanf src (.literal c :: d :: fmt) vars).2 = vars := by
  unfold sscanf
  cases hsrc : src.chars with
  | nil => rfl
  | cons c' s =>
    unfold sscanfGo
    simp only
    split
    . next hc =>
      subst hc
      have hnot := h s hsrc
      unfold sscanfGo
      cases d with
      | int bits store =>
        simp only
        split
        . rfl
        . rfl
        . next v rest hscan => exact absurd ⟨v, rest, hscan⟩ hnot
      | double store =>
        simp only
        split
        . rfl
        . rfl
        . next x rest hscan => exact absurd ⟨x, rest, hscan⟩ hnot
      | _ => exact absurd trivial hnot
    . rfl

end Scanf
