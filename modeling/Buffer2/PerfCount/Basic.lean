import Buffer2.Machine.Basic
import Buffer2.Scanf.Basic

/-!
This module contains `PerfCount`, which measures the time that has elapsed up to the first request for it
after each `Update`, and the programs that use one.
-/

namespace Double

def ratio (x y : Rat) : Double :=
  if y = 0 then
    if x = 0 then .nan else .inf (x < 0)
  else
    .rat (x / y)

def mul (x : Double) (q : Rat) : Double :=
  match x with
  | .rat r => .rat (r * q)
  | .inf negative => if q = 0 then .nan else .inf (negative != decide (q < 0))
  | .nan => .nan

end Double

structure TimeSpec where
  tvSec : BitVec 64
  tvNsec : BitVec 64
  deriving DecidableEq

def gettime (ts : TimeSpec) : BitVec 64 := 1000000000 * ts.tvSec + ts.tvNsec

/--
What the queries of the clock yield, one after the other.
-/
inductive Platform
  | os2 (freq : BitVec 32) (timer : Nat → BitVec 64)
  | posix (clock : Nat → TimeSpec)

def Platform.now (platform : Platform) (k : Nat) : BitVec 64 :=
  match platform with
  | .os2 _ timer => timer k
  | .posix clock => gettime (clock k)

structure PerfCount where
  loops : BitVec 32
  bytesSoFar : BitVec 64
  startTime : BitVec 64
  freq : BitVec 32
  elapsed : BitVec 64
  tvalid : Bool
  deriving DecidableEq

namespace PerfCount

/--
The constructor of the platform, in a memory that has been `p` before. Neither of them sets `Elapsed`.
-/
def construct (platform : Platform) (p : PerfCount) : PerfCount :=
  match platform with
  | .os2 freq timer =>
    { p with
      loops := 0
      bytesSoFar := 0
      freq
      startTime := timer 0
      tvalid := true }
  | .posix clock =>
    { p with
      loops := 0
      bytesSoFar := 0
      freq := 1000000000
      startTime := gettime (clock 0)
      tvalid := true }

def timeUpdate (p : PerfCount) (now : BitVec 64) : PerfCount :=
  { p with
    elapsed := now - p.startTime
    tvalid := true }

def update (p : PerfCount) (bytes : Nat) : PerfCount :=
  { p with
    bytesSoFar := p.bytesSoFar + BitVec.ofNat 64 bytes
    loops := p.loops + 1
    tvalid := false }

def seconds (p : PerfCount) : Double := .ratio p.elapsed.toNat p.freq.toInt

def rate (p : PerfCount) : Double := (Double.ratio p.bytesSoFar.toNat p.elapsed.toNat).mul p.freq.toInt

def blockRate (p : PerfCount) : Double := (Double.ratio p.loops.toNat p.elapsed.toNat).mul p.freq.toInt

def avgBlockSize (p : PerfCount) : Double := .ratio p.bytesSoFar.toNat p.loops.toNat

inductive Operation
  | update (bytes : Nat)
  | getSeconds
  | getRate
  | getBlockRate
  | getBytes
  | getBlocks
  | getAvgBlockSize
  deriving DecidableEq

/--
`used` shows the value of `Elapsed` that a result has been computed from, and which query of the clock
`TimeUpdate` has made for it, if any.
-/
inductive Event
  | updated
  | used (elapsed : BitVec 64) (query : Option Nat) (result : Double)
  | bytes (n : BitVec 64)
  | blocks (n : BitVec 32)
  | size (result : Double)
  deriving DecidableEq

structure Session where
  count : PerfCount
  queries : Nat
  deriving DecidableEq

namespace Session

def init (platform : Platform) (p : PerfCount) : Session where
  count := construct platform p
  queries := 1

def timeCheck (platform : Platform) (s : Session) : Session × Option Nat :=
  if !s.count.tvalid then
    ({ count := s.count.timeUpdate (platform.now s.queries)
       queries := s.queries + 1 }, some s.queries)
  else
    (s, none)

def use (platform : Platform) (s : Session) (result : PerfCount → Double) : Session × Event :=
  let (s, query) := s.timeCheck platform
  (s, .used s.count.elapsed query (result s.count))

def step (platform : Platform) (s : Session) (op : Operation) : Session × Event :=
  match op with
  | .update bytes => ({ s with count := s.count.update bytes }, .updated)
  | .getSeconds => s.use platform seconds
  | .getRate => s.use platform rate
  | .getBlockRate => s.use platform blockRate
  | .getBytes => (s, .bytes s.count.bytesSoFar)
  | .getBlocks => (s, .blocks s.count.loops)
  | .getAvgBlockSize => (s, .size s.count.avgBlockSize)

end Session

def machine (platform : Platform) : Machine Session Operation Event where
  step s op := some (s.step platform op)

end PerfCount
