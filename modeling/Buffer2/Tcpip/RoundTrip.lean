import Buffer2.Machine.Fold
import Buffer2.Tcpip.Port

/-!
This module contains the proof that parsing an endpoint and printing it undo each other.
-/

namespace Tcpip

open Scanf

structure Quad where
  a : Nat
  b : Nat
  c : Nat
  d : Nat
  a_le : a ≤ 255
  b_le : b ≤ 255
  c_le : c ≤ 255
  d_le : d ≤ 255

namespace Quad

def address (q : Quad) : BitVec 32 := .ofNat 32 (q.a * 2 ^ 24 + q.b * 2 ^ 16 + q.c * 2 ^ 8 + q.d)

/--
The text is the address in the dotted notation, without leading zeros.
-/
def IsText (q : Quad) (text : List Char) : Prop :=
  ∃ as bs cs ds, IsDecimal q.a as ∧ IsDecimal q.b bs ∧ IsDecimal q.c cs ∧ IsDecimal q.d ds ∧
    text = as ++ '.' :: (bs ++ '.' :: (cs ++ '.' :: ds))

def text (q : Quad) : List Char :=
  decimal q.a ++ '.' :: (decimal q.b ++ '.' :: (decimal q.c ++ '.' :: decimal q.d))

theorem isText_text (q : Quad) : q.IsText q.text :=
  ⟨_, _, _, _, isDecimal_decimal _, isDecimal_decimal _, isDecimal_decimal _, isDecimal_decimal _, rfl⟩

theorem IsText.eq_text {q : Quad} {text : List Char} (h : q.IsText text) : text = q.text := by
  obtain ⟨as, bs, cs, ds, ha, hb, hc, hd, rfl⟩ := h
  rw [ha.eq_decimal, hb.eq_decimal, hc.eq_decimal, hd.eq_decimal]
  rfl

end Quad

def Quad.zero : Quad where
  a := 0
  b := 0
  c := 0
  d := 0
  a_le := by decide
  b_le := by decide
  c_le := by decide
  d_le := by decide

theorem htonl_zero (order : ByteOrder) : order.htonl Quad.zero.address = inaddrAny := by
  cases order <;> decide

theorem exists_quad (ip : BitVec 32) : ∃ q : Quad, q.address = ip := by
  obtain ⟨a, b, c, d, ha, hb, hc, hd, rfl⟩ := exists_bytes_long ip
  exact ⟨⟨a, b, c, d, by omega, by omega, by omega, by omega⟩, rfl⟩

section Print

variable (order : ByteOrder) (q : Quad)

theorem toNat_address : q.address.toNat = q.a * 2 ^ 24 + q.b * 2 ^ 16 + q.c * 2 ^ 8 + q.d := by
  have ha := q.a_le
  have hb := q.b_le
  have hc := q.c_le
  have hd := q.d_le
  unfold Quad.address
  rw [BitVec.toNat_ofNat]
  omega

theorem toNat_and_ff (x : BitVec 32) : (x &&& 0xff).toNat = x.toNat % 2 ^ 8 := by
  rw [BitVec.toNat_and]
  exact Nat.and_two_pow_sub_one_eq_mod x.toNat 8

theorem ip2string_htonl : ip2string order (order.htonl q.address) = q.text := by
  have ha := q.a_le
  have hb := q.b_le
  have hc := q.c_le
  have hd := q.d_le
  have h24 : (q.address >>> 24).toNat = q.a := by
    rw [BitVec.toNat_ushiftRight, toNat_address, Nat.shiftRight_eq_div_pow]
    omega
  have h16 : ((q.address >>> 16) &&& 0xff).toNat = q.b := by
    rw [toNat_and_ff, BitVec.toNat_ushiftRight, toNat_address, Nat.shiftRight_eq_div_pow]
    omega
  have h8 : ((q.address >>> 8) &&& 0xff).toNat = q.c := by
    rw [toNat_and_ff, BitVec.toNat_ushiftRight, toNat_address, Nat.shiftRight_eq_div_pow]
    omega
  have h0 : (q.address &&& 0xff).toNat = q.d := by
    rw [toNat_and_ff, toNat_address]
    omega
  unfold ip2string
  simp only [ByteOrder.ntohl_htonl]
  rw [h24, h16, h8, h0]
  rfl

theorem isDigit_or_dot_of_mem_text : ∀ c ∈ q.text, isDigit 10 c = true ∨ c = '.' := by
  intro c hc
  simp only [Quad.text, List.mem_append, List.mem_cons] at hc
  obtain hc | rfl | hc | rfl | hc | rfl | hc := hc
  . exact .inl ((isDecimal_decimal q.a).valid c hc)
  . exact .inr rfl
  . exact .inl ((isDecimal_decimal q.b).valid c hc)
  . exact .inr rfl
  . exact .inl ((isDecimal_decimal q.c).valid c hc)
  . exact .inr rfl
  . exact .inl ((isDecimal_decimal q.d).valid c hc)

theorem colon_notMem_text : ':' ∉ q.text := by
  intro hc
  obtain h | h := isDigit_or_dot_of_mem_text q ':' hc
  . contradiction
  . contradiction

theorem text_ne_nil : q.text ≠ [] := by
  unfold Quad.text
  simp

theorem length_text_le : q.text.length ≤ 15 := by
  have ha := length_decimal_le (n := q.a) (k := 3) (by decide) (by have := q.a_le; omega)
  have hb := length_decimal_le (n := q.b) (k := 3) (by decide) (by have := q.b_le; omega)
  have hc := length_decimal_le (n := q.c) (k := 3) (by decide) (by have := q.c_le; omega)
  have hd := length_decimal_le (n := q.d) (k := 3) (by decide) (by have := q.d_le; omega)
  simp only [Quad.text, List.length_append, List.length_cons]
  omega

end Print

section Parse

variable {order : ByteOrder} {r : Resolver} {url : CString} {host port text : List Char} {q : Quad} {p : Nat}

/--
What is documented of `inet_addr`: it takes the dotted notation to the byte order of the network.
-/
def ParsesQuads (order : ByteOrder) (r : Resolver) : Prop :=
  ∀ (q : Quad) (text : List Char), q.IsText text → r.inetAddr text = order.htonl q.address

/--
What is documented of `gethostbyname`: it does not look up an address in dotted notation but copies it.
-/
def CopiesQuads (order : ByteOrder) (r : Resolver) : Prop :=
  ∀ (q : Quad) (text : List Char), q.IsText text → r.gethostbyname text = .ok (order.htonl q.address)

theorem parseHost_quad (hr : ParsesQuads order r) (h : q.IsText text)
    (hcopies : order.htonl q.address = inaddrNone → CopiesQuads order r) :
    parseHost r text = .ok (false, order.htonl q.address) := by
  have hne : text ≠ [] := by
    rw [h.eq_text]
    apply text_ne_nil
  unfold parseHost
  rw [if_neg hne, hr q text h]
  split
  . rfl
  . next hnone =>
    rw [hcopies (not_not.mp hnone) q text h]

theorem parse_decimal (order : ByteOrder) (h : Splits url host port) (hport : IsDecimal p port)
    (hp : p ≤ 65535)
    {isServer : Bool} {sinAddr : BitVec 32} (hhost : parseHost r host = .ok (isServer, sinAddr)) :
    parse order r url = .ok {
      isServer
      addr := {
        sinFamily := afInet
        sinPort := order.htons (.ofNat 16 p)
        sinAddr } } := by
  obtain ⟨n, rfl, hn⟩ := hport.exists_numeral
  have hvalue : BitVec.ofInt 16 (Int.bmod (strtol n.value) (2 ^ 16)) = BitVec.ofNat 16 p := by
    apply BitVec.eq_of_toNat_eq
    have hport := toNat_port n.value
    rw [(strtol_emod_eq_iff n.value).mpr (by omega)] at hport
    rw [BitVec.toNat_ofNat]
    omega
  rw [← List.nil_append n.text] at h
  rw [parse_numeral order h (by simp) hhost, hvalue]

theorem connectString_htonl (isServer : Bool) (hp : p ≤ 65535) :
    connectString order {
      isServer
      addr := {
        sinFamily := afInet
        sinPort := order.htons (.ofNat 16 p)
        sinAddr := order.htonl q.address } } = q.text ++ ':' :: decimal p := by
  have hport : (BitVec.ofNat 16 p).toNat = p := by
    rw [BitVec.toNat_ofNat]
    omega
  unfold connectString
  simp only [ByteOrder.ntohs_htons, ip2string_htonl, hport]

theorem parseHost_client {isServer : Bool} {sinAddr : BitVec 32} (hne : host ≠ [])
    (h : parseHost r host = .ok (isServer, sinAddr)) : isServer = false := by
  unfold parseHost at h
  rw [if_neg hne] at h
  split at h
  . cases h
    rfl
  . split at h
    . cases h
      rfl
    . cases h

theorem parseHost_of_parse {t : TcpipServices} (h : Splits url host port)
    (hparse : parse order r url = .ok t) : parseHost r host = .ok (t.isServer, t.addr.sinAddr) := by
  obtain ⟨cp, _, heq⟩ := parse_of_splits order r h
  rw [heq] at hparse
  obtain ⟨⟨isServer, sinAddr⟩, hhost, hparse⟩ := Fold.exists_of_bind_ok hparse
  obtain ⟨sinPort, _, hparse⟩ := Fold.exists_of_bind_ok hparse
  cases hparse
  exact hhost

end Parse

structure RoundTrips (order : ByteOrder) (r : Resolver) : Prop where
  parse_connectString (s : TcpipServices) : s.addr.sinAddr ≠ inaddrNone →
    ∃ url : CString, url.chars = connectString order s ∧
      ∃ t, parse order r url = .ok t ∧ t.addr.sinAddr = s.addr.sinAddr ∧ t.addr.sinPort = s.addr.sinPort
  connectString_parse (url : CString) (q : Quad) (p : Nat) (text port : List Char) : q.IsText text →
    IsDecimal p port → p ≤ 65535 → url.chars = text ++ ':' :: port →
      (order.htonl q.address = inaddrNone → CopiesQuads order r) →
        ∃ t, parse order r url = .ok t ∧ connectString order t = url.chars
  server (url : CString) (p : Nat) (port : List Char) : IsDecimal p port → p ≤ 65535 →
    url.chars = ':' :: port →
      ∃ t, parse order r url = .ok t ∧ t.isServer = true ∧
        connectString order t = ['0', '.', '0', '.', '0', '.', '0'] ++ ':' :: port
  client (url : CString) (host port : List Char) (t : TcpipServices) : Splits url host port →
    host ≠ [] → parse order r url = .ok t → t.isServer = false

section RoundTrips

variable {order : ByteOrder} {r : Resolver} {q : Quad} {p : Nat}

theorem splits_quad {url : CString} {port : List Char} (h : url.chars = q.text ++ ':' :: port) :
    Splits url q.text port where
  chars := h
  colon := colon_notMem_text q

theorem exists_url (q : Quad) (hp : p ≤ 65535) : ∃ url : CString, url.chars = q.text ++ ':' :: decimal p := by
  refine ⟨⟨q.text ++ ':' :: decimal p, ?_, ?_⟩, rfl⟩
  . intro c hc
    rw [List.mem_append, List.mem_cons] at hc
    rintro rfl
    obtain hc | hc | hc := hc
    . obtain h | h := isDigit_or_dot_of_mem_text q nul hc
      . contradiction
      . contradiction
    . contradiction
    . have h := (isDecimal_decimal p).valid nul hc
      contradiction
  . have hport := length_decimal_le (n := p) (k := 5) (by decide) (by omega)
    have htext := length_text_le q
    rw [List.length_append, List.length_cons]
    omega

theorem exists_connectString (order : ByteOrder) (s : TcpipServices) :
    ∃ (q : Quad) (p : Nat), p ≤ 65535 ∧ s.addr.sinAddr = order.htonl q.address ∧
      s.addr.sinPort = order.htons (.ofNat 16 p) ∧ connectString order s = q.text ++ ':' :: decimal p := by
  obtain ⟨q, hq⟩ := exists_quad (order.ntohl s.addr.sinAddr)
  have haddr : s.addr.sinAddr = order.htonl q.address := by
    rw [hq, ByteOrder.htonl_ntohl]
  refine ⟨q, (order.ntohs s.addr.sinPort).toNat, ?_, haddr, ?_, ?_⟩
  . have := (order.ntohs s.addr.sinPort).isLt
    omega
  . rw [BitVec.ofNat_toNat, BitVec.setWidth_eq, ByteOrder.htons_ntohs]
  . unfold connectString
    rw [haddr, ip2string_htonl]

theorem connectString_parse_text {url : CString} {host port : List Char} {isServer : Bool}
    (h : Splits url host port) (hport : IsDecimal p port) (hp : p ≤ 65535)
    (hhost : parseHost r host = .ok (isServer, order.htonl q.address)) :
    ∃ t, parse order r url = .ok t ∧ t.isServer = isServer ∧
      connectString order t = q.text ++ ':' :: port := by
  refine ⟨_, parse_decimal order h hport hp hhost, rfl, ?_⟩
  rw [connectString_htonl _ hp, hport.eq_decimal]

end RoundTrips

theorem roundTrips (order : ByteOrder) (r : Resolver) (h : ParsesQuads order r) : RoundTrips order r where
  parse_connectString := by
    intro s hne
    obtain ⟨q, p, hp, haddr, hport, hs⟩ := exists_connectString order s
    obtain ⟨url, hurl⟩ := exists_url q hp
    rw [haddr] at hne
    have hhost := parseHost_quad h q.isText_text fun hnone => absurd hnone hne
    have hparse := parse_decimal order (splits_quad hurl) (isDecimal_decimal p) hp hhost
    exact ⟨url, hurl.trans hs.symm, _, hparse, haddr.symm, hport.symm⟩
  connectString_parse := by
    intro url q p text port htext hport hp hurl hcopies
    have hhost := parseHost_quad h htext hcopies
    rw [htext.eq_text] at hurl hhost
    obtain ⟨t, ht, _, hprint⟩ := connectString_parse_text (splits_quad hurl) hport hp hhost
    exact ⟨t, ht, hprint.trans hurl.symm⟩
  server := by
    intro url p port hport hp hurl
    have hsplits : Splits url [] port := ⟨hurl, by simp⟩
    have hhost : parseHost r [] = .ok (true, order.htonl Quad.zero.address) := by
      rw [htonl_zero]
      rfl
    exact connectString_parse_text hsplits hport hp hhost
  client := by
    intro url host port t hsplits hne hparse
    exact parseHost_client hne (parseHost_of_parse hsplits hparse)

def octet (s : List Char) : Nat × List Char :=
  (ofDigits 10 (s.takeWhile (isDigit 10)), (s.dropWhile (isDigit 10)).drop 1)

def dottedOnly (order : ByteOrder) : Resolver where
  inetAddr text :=
    let (a, s) := octet text
    let (b, s) := octet s
    let (c, s) := octet s
    let (d, _) := octet s
    if a ≤ 255 ∧ b ≤ 255 ∧ c ≤ 255 ∧ d ≤ 255 ∧
        text = decimal a ++ '.' :: (decimal b ++ '.' :: (decimal c ++ '.' :: decimal d)) then
      order.htonl (.ofNat 32 (a * 2 ^ 24 + b * 2 ^ 16 + c * 2 ^ 8 + d))
    else
      inaddrNone
  gethostbyname _ := .error 1
  getservbyname _ := .error 1

theorem octet_decimal (n : Nat) : octet (decimal n) = (n, []) := by
  have h := isDecimal_decimal n
  unfold octet
  rw [← List.append_nil (decimal n)]
  rw [takeWhile_append_stop h.valid (by simp), dropWhile_append_stop h.valid (by simp), h.value]
  rfl

theorem octet_decimal_dot (n : Nat) (rest : List Char) : octet (decimal n ++ '.' :: rest) = (n, rest) := by
  have h := isDecimal_decimal n
  have hdot : ∀ c ∈ ('.' :: rest).head?, isDigit 10 c = false := by
    intro c hc
    cases hc
    decide
  unfold octet
  rw [takeWhile_append_stop h.valid hdot, dropWhile_append_stop h.valid hdot, h.value]
  rfl

theorem parsesQuads_dottedOnly (order : ByteOrder) : ParsesQuads order (dottedOnly order) := by
  intro q text htext
  obtain rfl := htext.eq_text
  have ha : octet q.text = (q.a, _) := octet_decimal_dot q.a _
  simp only [dottedOnly, ha, octet_decimal_dot, octet_decimal]
  rw [if_pos]
  . rfl
  . exact ⟨q.a_le, q.b_le, q.c_le, q.d_le, rfl⟩

theorem roundTrips_dottedOnly : RoundTrips .little (dottedOnly .little) :=
  roundTrips .little (dottedOnly .little) (parsesQuads_dottedOnly .little)

end Tcpip
