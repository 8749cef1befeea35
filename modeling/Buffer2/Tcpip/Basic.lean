import Buffer2.Memory.ByteOrder
import Buffer2.Scanf.Decimal

/-!
This module contains the endpoints of TCP/IP connections: how they are parsed from an URL and how they
are printed.
-/

namespace Tcpip

open Scanf

/--
The functions of the system that an URL is resolved with. Addresses and ports have the byte order of the
network. A lookup that finds nothing comes with what is in `h_errno` then.
-/
structure Resolver where
  inetAddr : List Char → BitVec 32
  gethostbyname : List Char → Except Int (BitVec 32)
  getservbyname : List Char → Except Int (BitVec 16)

def inaddrAny : BitVec 32 := 0

def inaddrNone : BitVec 32 := 0xffffffff

def afInet : Nat := 2

inductive Failure
  | syntaxError (what : String)
  | osError (rc : Int) (what : String)
  deriving DecidableEq

def osError (rc : Int) (msg : String) : Failure := .osError rc (msg ++ s!"\nError code = {rc}")

structure SockaddrIn where
  sinFamily : Nat
  sinPort : BitVec 16
  sinAddr : BitVec 32
  deriving DecidableEq

/--
A connection without its socket.
-/
structure TcpipServices where
  isServer : Bool
  addr : SockaddrIn
  deriving DecidableEq

def parseHost (r : Resolver) (host : List Char) : Except Failure (Bool × BitVec 32) :=
  if host = [] then
    .ok (true, inaddrAny)
  else if r.inetAddr host ≠ inaddrNone then
    .ok (false, r.inetAddr host)
  else
    match r.gethostbyname host with
    | .ok address => .ok (false, address)
    | .error rc => .error (osError rc s!"The hosname {String.ofList host} cannot be resolved.")

/--
The variables that a numeric port is read into. `len` has no value at first.
-/
structure PortVars where
  sinPort : BitVec 16
  len : Option Nat

def portFormat : List (Directive PortVars) :=
  [.int 16 fun v vars => { vars with sinPort := .ofInt 16 v },
    .count fun len vars => { vars with len := some len }]

def portVars : PortVars where
  sinPort := 0
  len := none

def parsePort (order : ByteOrder) (r : Resolver) (cp : CString) : Except Failure (BitVec 16) :=
  let (n, vars) := sscanf cp portFormat portVars
  if n = 1 ∧ vars.len = some cp.strlen then
    .ok (order.htons vars.sinPort)
  else
    match r.getservbyname cp.chars with
    | .ok port => .ok port
    | .error rc =>
      .error (osError rc
        s!"The service {cp.toString} is not listed in etc/services or does not belong to the TCP protocol.")

def parse (order : ByteOrder) (r : Resolver) (url : CString) : Except Failure TcpipServices :=
  match url.strchr ':' with
  | none =>
    .error (.syntaxError
      s!"The TCP/IP URL tcpip://{url.toString} does not contain a port number. tcpip://hostname:port expected.")
  | some i => do
    let (isServer, sinAddr) ← parseHost r (url.chars.take i)
    let sinPort ← parsePort order r (url.drop (i + 1))
    return {
      isServer
      addr := { sinFamily := afInet, sinPort, sinAddr } }

def ip2string (order : ByteOrder) (ip : BitVec 32) : List Char :=
  let ip := order.ntohl ip
  decimal (ip >>> 24).toNat ++ '.' :: (decimal ((ip >>> 16) &&& 0xff).toNat ++
    '.' :: (decimal ((ip >>> 8) &&& 0xff).toNat ++ '.' :: decimal (ip &&& 0xff).toNat))

def connectString (order : ByteOrder) (s : TcpipServices) : List Char :=
  ip2string order s.addr.sinAddr ++ ':' :: decimal (order.ntohs s.addr.sinPort).toNat

end Tcpip
