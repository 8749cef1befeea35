import Buffer2.Scanf.Basic

/-!
This module contains `main` up to the construction of the FIFO: the options, the argument loop and the
calculations that follow it.

It is the program without the parts for OS/2 and Windows, so there is no option `-a`. The rounding `fl` is
that of `double`.
-/

/--
What ends `main` early: an exception, or behaviour that C++ leaves undefined, as when a variable is
read that has no value yet or a format of `printf` ends within a conversion.
-/
inductive Failure
  | syntaxError (what : String)
  | invalidArgument (what : String)
  | undefined
  deriving DecidableEq

namespace CommandLine

open Scanf

structure ParseintVars where
  ret : Option Int
  l : Nat
  unit : Char

def parseintFormat : List (Directive ParseintVars) :=
  [.literal '=', .int 32 fun v vars => { vars with ret := some v },
    .count fun l vars => { vars with l },
    .string 1 fun s vars => { vars with unit := s.headD nul },
    .count fun l vars => { vars with l }]

def load {α : Type} (x : Option α) : Except Failure α :=
  match x with
  | some v => .ok v
  | none => .error .undefined

def longMul (a b : Int) : Int := Int.bmod (a * b) (2 ^ 32)

def parseintVars : ParseintVars where
  ret := none
  l := 2 ^ 32 - 1
  unit := nul

/--
The switch at the end of `parseint`.
-/
def applyUnit (src : CString) (ret : Option Int) (unit : Char) : Except Failure Int :=
  match unit.toUpper with
  | 'K' => (load ret).map fun ret => longMul ret 1024
  | 'M' => (load ret).map fun ret => longMul ret (1024 * 1024)
  | 'G' => (load ret).map fun ret => longMul ret (1024 * 1024 * 1024)
  | c =>
    if c = nul then
      load ret
    else
      .error (.syntaxError
        s!"The unit '{unit}' is invalid at the integer constant '{(src.drop 1).toString}'")

def parseint (src : CString) : Except Failure Int :=
  let (n, vars) := sscanf src parseintFormat parseintVars
  if n = 0 ∨ vars.l ≠ src.strlen then
    .error (.syntaxError s!"'=' followed by an integer value expected. Found '{src.toString}'")
  else
    applyUnit src vars.ret vars.unit

structure ParsedoubleVars where
  ret : Option Double
  l : Nat

def parsedoubleFormat (fl : Rounding) : List (Directive ParsedoubleVars) :=
  [.literal '=', .double fun x vars => { vars with ret := some (fl.convert x) },
    .count fun l vars => { vars with l }]

def parsedoubleVars : ParsedoubleVars where
  ret := none
  l := 2 ^ 32 - 1

def parsedouble (fl : Rounding) (src : CString) : Except Failure Double :=
  let (n, vars) := sscanf src (parsedoubleFormat fl) parsedoubleVars
  if n = 0 ∨ vars.l ≠ src.strlen then
    .error (.syntaxError
      s!"'=' followed by an floating-point value expected. Found '{src.toString}'")
  else
    load vars.ret

structure Config where
  bufferSize : Int
  requestSize : Int
  pipeSize : Int
  iHighWaterMark : Int
  dHighWaterMark : Double
  iLowWaterMark : Int
  dLowWaterMark : Double
  enableCache : Bool
  enableInputStats : Bool
  enableOutputStats : Bool
  deriving DecidableEq

def Config.initial : Config where
  bufferSize := 65536
  requestSize := -1
  pipeSize := 8192
  iHighWaterMark := 0
  dHighWaterMark := .rat (-1)
  iLowWaterMark := -1
  dLowWaterMark := .rat 1
  enableCache := false
  enableInputStats := false
  enableOutputStats := false

def parseSize (what : String) (src : CString) : Except Failure Int := do
  let size ← parseint src
  if size < 1 then
    throw (.syntaxError what)
  return size

/--
The branch of `-h` and `-l` for a text that ends with `%`. The argument is cut there, but it is not
read again.
-/
def parsePercentage (fl : Rounding) (cp : CString) : Except Failure Double := do
  let cp := cp.cut (1 + (cp.drop 2).strlen)
  let d := fl.div (← parsedouble fl (cp.drop 2)) 100
  if d.lt 0 || d.gt 100 then
    -- The format of the message for this syntax error ends with the conversion `%.`.
    throw .undefined
  return d

/--
The pair of variables that `-h` or `-l` leaves, `i` being what is in the first one before.
-/
def parseMark (fl : Rounding) (cp : CString) (i : Int) : Except Failure (Int × Double) :=
  if cp.charAt (1 + (cp.drop 2).strlen) = '%' then
    (parsePercentage fl cp).map fun d => (i, d)
  else
    (parseint (cp.drop 2)).map fun level => (level, .rat (-1))

def parseBufferSize (cp : CString) : Except Failure Int :=
  parseSize "The buffer size must be positive." (cp.drop 2)

def parseRequestSize (cp : CString) : Except Failure Int :=
  parseSize "The request size must be positive." (cp.drop 2)

def parsePipeSize (cp : CString) : Except Failure Int :=
  parseSize "The pipe buffer size must be positive." (cp.drop 2)

def parseoption (fl : Rounding) (c : Config) (cp : CString) : Except Failure Config :=
  match (cp.charAt 1).toLower with
  | 'b' => (parseBufferSize cp).map fun bufferSize => { c with bufferSize }
  | 'r' => (parseRequestSize cp).map fun requestSize => { c with requestSize }
  | 'p' => (parsePipeSize cp).map fun pipeSize => { c with pipeSize }
  | 'h' =>
    (parseMark fl cp c.iHighWaterMark).map fun (i, d) =>
      { c with
        iHighWaterMark := i
        dHighWaterMark := d }
  | 'l' =>
    (parseMark fl cp c.iLowWaterMark).map fun (i, d) =>
      { c with
        iLowWaterMark := i
        dLowWaterMark := d }
  | 'c' => .ok { c with enableCache := true }
  | 's' =>
    match (cp.charAt 2).toLower with
    | 'i' => .ok { c with enableInputStats := true }
    | 'o' => .ok { c with enableOutputStats := true }
    | d =>
      if d = nul then
        .ok { c with
          enableInputStats := true
          enableOutputStats := true }
      else
        .error (.syntaxError s!"Invalid option {cp.toString}.")
  | _ => .error (.syntaxError s!"Invalid option {cp.toString}.")

structure Arguments where
  config : Config
  input : Option CString
  output : Option CString

def Arguments.initial : Arguments where
  config := .initial
  input := none
  output := none

def isOption (arg : CString) : Bool := arg.charAt 0 = '-' && arg.charAt 1 ≠ nul

def argument (fl : Rounding) (s : Arguments) (arg : CString) : Except Failure Arguments :=
  if isOption arg then
    (parseoption fl s.config arg).map fun config => { s with config }
  else if s.input = none then
    .ok { s with input := some arg }
  else if s.output = none then
    .ok { s with output := some arg }
  else
    .error (.syntaxError
      s!"More than two I/O objects in the command line (at {arg.toString}).")

def waterMark (fl : Rounding) (what : String) (bufferSize i : Int) (d : Double) : Except Failure Double :=
  if d.lt 0 then
    if i > bufferSize then
      .error (.syntaxError what)
    else
      .ok (fl.round (i / bufferSize))
  else
    .ok d

def calculations (fl : Rounding) (c : Config) : Except Failure Config := do
  let high ← waterMark fl "The high water mark is larger than the buffer size." c.bufferSize
    c.iHighWaterMark c.dHighWaterMark
  let low ← waterMark fl "The low water mark is larger than the buffer size." c.bufferSize
    c.iLowWaterMark c.dLowWaterMark
  let requestSize :=
    if c.requestSize < 0 then
      if c.bufferSize ≥ 1024 * 256 then c.bufferSize.tdiv 8 else c.bufferSize.tdiv 4
    else
      c.requestSize
  return { c with
    dHighWaterMark := high
    dLowWaterMark := low
    requestSize }

def part2Bytes (fl : Rounding) (bufferSize : Int) (part : Double) : Except Failure Nat :=
  if part.lt 0 || part.gt 1 then
    .error (.invalidArgument "The fractional part of the fifo buffer is not in the range [0,1].")
  else
    match fl.add (fl.mul part bufferSize) (1 / 2) with
    | .rat q => .ok q.floor.toNat
    | _ => .error .undefined

structure Settings where
  input : CString
  output : CString
  config : Config
  deriving DecidableEq

/--
The argument loop and the calculations. It is `none` if `main` prints its usage.
-/
def settings (fl : Rounding) (args : List CString) : Except Failure (Option Settings) := do
  let s ← args.foldlM (argument fl) .initial
  match s.input, s.output with
  | some input, some output => return some { input, output, config := ← calculations fl s.config }
  | _, _ => return none

structure Started where
  settings : Settings
  lowWaterMark : Nat
  highWaterMark : Nat
  deriving DecidableEq

/--
The water marks of the FIFO. They are initialized in the order of the declarations in its class.
-/
def construct (fl : Rounding) (s : Settings) : Except Failure Started := do
  let lowWaterMark ← part2Bytes fl s.config.bufferSize s.config.dLowWaterMark
  let highWaterMark ← part2Bytes fl s.config.bufferSize s.config.dHighWaterMark
  return { settings := s, lowWaterMark, highWaterMark }

/--
The arguments are without `argv[0]`.
-/
def main (fl : Rounding) (args : List CString) : Except Failure (Option Started) := do
  match ← settings fl args with
  | some s => return some (← construct fl s)
  | none => return none

/--
The exit code of a run that ends before the workers start. Undefined behaviour has none.
-/
def exitCode (result : Except Failure (Option Started)) : Option Nat :=
  match result with
  | .ok none => some 48
  | .error (.syntaxError _) => some 49
  | .error (.invalidArgument _) => some 19
  | .error .undefined => none
  | .ok (some _) => none

end CommandLine
