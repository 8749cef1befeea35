import Buffer2.Tcpip.Basic

/-!
This module contains the proofs about numeric ports: which numbers are taken as they are, and which ones
are wrapped around.
-/

namespace Tcpip

open Scanf

section Parse

variable {order : ByteOrder} {r : Resolver} {url cp : CString} {host port : List Char}

/--
The URL consists of a host and a port, that is what stands before and after the first colon.
-/
structure Splits (url : CString) (host port : List Char) : Prop where
  chars : url.chars = host ++ ':' :: port
  colon : ':' ∉ host

def Resolves (r : Resolver) (host : List Char) : Prop := ∃ a, parseHost r host = .ok a

theorem idxOf?_append_cons (h : ':' ∉ host) : (host ++ ':' :: port).idxOf? ':' = some host.length := by
  induction host with
  | nil => rfl
  | cons c host ih =>
    rw [List.mem_cons, not_or] at h
    have hc : (c == ':') = false := by
      rw [beq_eq_false_iff_ne]
      exact Ne.symm h.1
    rw [List.cons_append, List.idxOf?_cons, hc, ih h.2]
    rfl

theorem parse_of_splits (order : ByteOrder) (r : Resolver) (h : Splits url host port) :
    ∃ cp : CString, cp.chars = port ∧ parse order r url = do
      let (isServer, sinAddr) ← parseHost r host
      let sinPort ← parsePort order r cp
      return {
        isServer
        addr := { sinFamily := afInet, sinPort, sinAddr } } := by
  refine ⟨url.drop (host.length + 1), ?_, ?_⟩
  . show url.chars.drop (host.length + 1) = port
    rw [h.chars]
    simp
  . have hcolon : url.strchr ':' = some host.length := by
      unfold CString.strchr
      rw [h.chars]
      exact idxOf?_append_cons h.colon
    unfold parse
    rw [hcolon]
    simp only
    rw [h.chars, List.take_left]

theorem sscanf_port {ws : List Char} {n : Numeral} (hws : ∀ c ∈ ws, isspace c = true)
    (hcp : cp.chars = ws ++ n.text) :
    sscanf cp portFormat portVars =
      (1, { sinPort := .ofInt 16 (Int.bmod (strtol n.value) (2 ^ 16)), len := some cp.strlen }) := by
  have hscan : scanInt cp.chars = .item n.value [] := by
    rw [hcp, ← List.append_nil n.text]
    exact scanInt_text hws stops_nil
  unfold sscanf portFormat
  simp only [sscanfGo, hscan]
  rfl

theorem parsePort_numeral {ws : List Char} {n : Numeral} (hws : ∀ c ∈ ws, isspace c = true)
    (hcp : cp.chars = ws ++ n.text) :
    parsePort order r cp = .ok (order.htons (.ofInt 16 (Int.bmod (strtol n.value) (2 ^ 16)))) := by
  unfold parsePort
  rw [sscanf_port hws hcp]
  simp

theorem parse_numeral (order : ByteOrder) {ws : List Char} {n : Numeral}
    (h : Splits url host (ws ++ n.text))
    (hws : ∀ c ∈ ws, isspace c = true) {isServer : Bool} {sinAddr : BitVec 32}
    (hhost : parseHost r host = .ok (isServer, sinAddr)) :
    parse order r url = .ok {
      isServer
      addr := {
        sinFamily := afInet
        sinPort := order.htons (.ofInt 16 (Int.bmod (strtol n.value) (2 ^ 16)))
        sinAddr } } := by
  obtain ⟨cp, hcp, hparse⟩ := parse_of_splits order r h
  rw [hparse, hhost]
  simp only [bind, Except.bind, parsePort_numeral hws hcp]
  rfl

end Parse

structure ExactOrRefused (order : ByteOrder) (r : Resolver) (url : CString) (v : Int) : Prop where
  exact (s : TcpipServices) : parse order r url = .ok s →
    ((order.ntohs s.addr.sinPort).toNat : Int) = v ∧ 0 ≤ v ∧ v ≤ 65535
  refused : ¬ (0 ≤ v ∧ v ≤ 65535) → ∃ f, parse order r url = .error f

theorem toNat_port (v : Int) :
    ((BitVec.ofInt 16 (Int.bmod (strtol v) (2 ^ 16))).toNat : Int) = strtol v % 2 ^ 16 := by
  rw [BitVec.toNat_ofInt]
  have hmod : Int.bmod (strtol v) (2 ^ 16) % ((2 ^ 16 : Nat) : Int) = strtol v % ((2 ^ 16 : Nat) : Int) :=
    Int.bmod_emod
  rw [hmod]
  simp only [Nat.reducePow]
  omega

theorem strtol_emod_eq_iff (v : Int) : strtol v % 2 ^ 16 = v ↔ 0 ≤ v ∧ v ≤ 65535 := by
  unfold strtol longMin longMax
  omega

def PortsAreExact : Prop :=
  ∀ (order : ByteOrder) (r : Resolver) (url : CString) (host ws : List Char) (n : Numeral),
    Splits url host (ws ++ n.text) → (∀ c ∈ ws, isspace c = true) → Resolves r host →
      ExactOrRefused order r url n.value

theorem exactOrRefused_iff (order : ByteOrder) (r : Resolver) (url : CString) (host ws : List Char)
    (n : Numeral) (h : Splits url host (ws ++ n.text)) (hws : ∀ c ∈ ws, isspace c = true)
    (hhost : Resolves r host) :
    ExactOrRefused order r url n.value ↔ 0 ≤ n.value ∧ n.value ≤ 65535 := by
  obtain ⟨⟨isServer, sinAddr⟩, hhost⟩ := hhost
  have hparse := parse_numeral order h hws hhost
  constructor
  . intro hexact
    exact (hexact.exact _ hparse).2
  . intro hrange
    constructor
    . intro s hs
      rw [hparse] at hs
      cases hs
      refine ⟨?_, hrange⟩
      rw [ByteOrder.ntohs_htons, toNat_port, strtol_emod_eq_iff]
      exact hrange
    . intro hout
      contradiction

def tooLargeNumeral : Numeral where
  sign := .none
  radix := .decimal
  lead := '7'
  digits := ['0', '0', '0', '0']
  valid := List.all_iff_forall_prop.mp (by decide)
  leads := by
    show '7' ≠ '0'
    decide

def tooLargeUrl : CString where
  chars := ':' :: tooLargeNumeral.text
  nonzero := List.all_iff_forall_prop.mp (by decide)
  fits := by decide

def noNames : Resolver where
  inetAddr _ := inaddrNone
  gethostbyname _ := .error 1
  getservbyname _ := .error 1

theorem splits_tooLargeUrl : Splits tooLargeUrl [] ([] ++ tooLargeNumeral.text) where
  chars := rfl
  colon := by simp

theorem not_portsAreExact : ¬ PortsAreExact := by
  intro h
  have hexact := h .little noNames tooLargeUrl [] [] tooLargeNumeral splits_tooLargeUrl (by simp) ⟨_, rfl⟩
  have hhost : parseHost noNames [] = .ok (true, inaddrAny) := rfl
  have hparse := parse_numeral .little splits_tooLargeUrl (by simp) hhost
  have hle := (hexact.exact _ hparse).2.2
  exact absurd hle (by decide)

theorem exactOrRefused_iff_tooLarge :
    ¬ ExactOrRefused .little noNames tooLargeUrl tooLargeNumeral.value := by
  rw [exactOrRefused_iff .little noNames tooLargeUrl [] [] tooLargeNumeral splits_tooLargeUrl (by simp)
    ⟨_, rfl⟩]
  decide

end Tcpip
