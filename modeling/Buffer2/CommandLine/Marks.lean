import Mathlib.Algebra.Order.Field.Basic
import Mathlib.Tactic.Linarith
import Buffer2.CommandLine.Errors
import Buffer2.CommandLine.Sizes

/-!
This module contains the proofs about the range of the water marks: which marks out of range are
refused, and which ones get as far as the constructor of the FIFO.
-/

namespace CommandLine

open Scanf

/--
What the text of a mark denotes: `n * 1024 ^ e` bytes, or `q` percent of the buffer.
-/
inductive Level
  | absolute (n : Int) (e : Nat)
  | relative (q : Rat)

namespace Level

def OutOfRange (m : Level) (bufferSize : Int) : Prop :=
  match m with
  | .absolute n e => n * 1024 ^ e < 0 ∨ bufferSize < n * 1024 ^ e
  | .relative q => q < 0 ∨ 100 < q

/--
A percentage is tested by the option after the division by 100.
-/
def Readable (m : Level) : Prop :=
  match m with
  | .absolute _ _ => True
  | .relative q => 0 ≤ q ∧ q ≤ 10000

/--
The level is above the size of the buffer even after it has been wrapped around in a `long`.
-/
def Above (m : Level) (bufferSize : Int) : Prop :=
  match m with
  | .absolute n e => bufferSize < longMul (strtol n) (1024 ^ e)
  | .relative _ => False

def mark (m : Level) : Mark :=
  match m with
  | .absolute n e => .absolute (longMul (strtol n) (1024 ^ e))
  | .relative q => .relative (.rat (q / 100))

def part (m : Level) (bufferSize : Int) : Rat :=
  match m with
  | .absolute n e => longMul (strtol n) (1024 ^ e) / bufferSize
  | .relative q => q / 100

end Level

inductive Denotes (cp : CString) : Level → Prop
  | absolute (n : Numeral) (e : Nat) (h : SizeText n e (cp.drop 2).chars) :
    Denotes cp (.absolute n.value e)
  | relative (q : Rat) (hrelative : isRelative cp = true)
      (h : parsedouble .exact (percentage cp) = .ok (.rat q)) :
    Denotes cp (.relative q)

section Denotes

variable {cp : CString} {m : Level} {q : Rat}

theorem denotes_of_any (hrelative : isRelative cp = true)
    (h : (parsedouble .exact (percentage cp)).toOption.any (fun x => decide (x = .rat q)) = true) :
    Denotes cp (.relative q) := by
  apply Denotes.relative
  . exact hrelative
  . obtain ⟨x, hx, hrat⟩ := Fold.exists_of_any h
    rw [hx, of_decide_eq_true hrat]

theorem parsedouble_of_parsePercentage {d : Double} (h : parsePercentage .exact cp = .ok d) :
    ∃ x, parsedouble .exact (percentage cp) = .ok x := by
  unfold parsePercentage at h
  obtain ⟨x, hx, _⟩ := Fold.exists_of_bind_ok h
  exact ⟨x, hx⟩

theorem readable_iff (q : Rat) :
    ((Rounding.exact.div (.rat q) 100).lt 0 || (Rounding.exact.div (.rat q) 100).gt 100) = false ↔
      (Level.relative q).Readable := by
  simp only [Rounding.div, Double.map, Rounding.exact, Double.lt, Double.gt, Bool.or_eq_false_iff,
    decide_eq_false_iff_not, not_lt]
  rw [le_div_iff₀ (by norm_num), div_le_iff₀ (by norm_num)]
  norm_num [Level.Readable]

theorem parsePercentage_iff (h : parsedouble .exact (percentage cp) = .ok (.rat q)) (d : Double) :
    parsePercentage .exact cp = .ok d ↔ (Level.relative q).Readable ∧ d = .rat (q / 100) := by
  rw [parsePercentage_eq h, ← readable_iff]
  cases hrange : (Rounding.exact.div (.rat q) 100).lt 0 || (Rounding.exact.div (.rat q) 100).gt 100 with
  | true =>
    simp
  | false =>
    simp only [Bool.false_eq_true, if_false, true_and, Except.ok.injEq]
    exact eq_comm

theorem parsedMark_iff (h : Denotes cp m) (mark : Mark) :
    parsedMark .exact cp = .ok mark ↔ m.Readable ∧ mark = m.mark := by
  cases h with
  | absolute n e h =>
    have hmark : parsedMark .exact cp = .ok (.absolute (longMul (strtol n.value) (1024 ^ e))) := by
      rw [← map_parseMark .exact cp 0, parseMark_size 0 h]
      rfl
    rw [hmark, Except.ok.injEq]
    simp only [Level.Readable, Level.mark, true_and]
    exact eq_comm
  | relative q hrelative h =>
    unfold parsedMark
    rw [if_pos hrelative]
    constructor
    . intro hmark
      obtain ⟨d, hd, rfl⟩ := Fold.exists_of_map_ok hmark
      obtain ⟨hreadable, rfl⟩ := (parsePercentage_iff h d).mp hd
      exact ⟨hreadable, rfl⟩
    . rintro ⟨hreadable, rfl⟩
      rw [(parsePercentage_iff h (.rat (q / 100))).mpr ⟨hreadable, rfl⟩]
      rfl

end Denotes

inductive Reads (arg : CString) : Prop
  | size (n : Numeral) (e : Nat) (hletter : (arg.charAt 1).toLower ∈ ['b', 'r', 'p'])
      (hsize : SizeText n e (arg.drop 2).chars) (hpos : 1 ≤ longMul (strtol n.value) (1024 ^ e))
  | mark (m : Level) (hletter : (arg.charAt 1).toLower ∈ ['h', 'l']) (hdenotes : Denotes arg m)
      (hreadable : m.Readable)
  | cache (hletter : (arg.charAt 1).toLower = 'c')
  | stats (hletter : (arg.charAt 1).toLower = 's') (hwhich : (arg.charAt 2).toLower ∈ ['i', 'o', nul])

def HasRational (arg : CString) : Prop :=
  isRelative arg = true → ∀ x, parsedouble .exact (percentage arg) = .ok x → ∃ q, x = .rat q

section Reads

variable {arg : CString}

theorem exists_denotes {mark : Mark} (hrational : HasRational arg) (h : parsedMark .exact arg = .ok mark) :
    ∃ m, Denotes arg m := by
  unfold parsedMark at h
  split at h
  . next hrelative =>
    obtain ⟨d, hd, _⟩ := Fold.exists_of_map_ok h
    obtain ⟨x, hx⟩ := parsedouble_of_parsePercentage hd
    obtain ⟨q, rfl⟩ := hrational hrelative x hx
    exact ⟨_, .relative q hrelative hx⟩
  . obtain ⟨v, hv, _⟩ := Fold.exists_of_map_ok h
    obtain ⟨n, e, hsize, _⟩ := sizeText_of_parseint hv
    exact ⟨_, .absolute n e hsize⟩

theorem Reads.of_parseSize {what : String} {v : Int} (hletter : (arg.charAt 1).toLower ∈ ['b', 'r', 'p'])
    (h : parseSize what (arg.drop 2) = .ok v) : Reads arg := by
  obtain ⟨hv, hpos⟩ := parseSize_cases h
  obtain ⟨n, e, hsize, rfl⟩ := sizeText_of_parseint hv
  exact .size n e hletter hsize hpos

theorem Reads.of_parseMark {i j : Int} {d : Double} (hletter : (arg.charAt 1).toLower ∈ ['h', 'l'])
    (hrational : HasRational arg) (h : parseMark .exact arg i = .ok (j, d)) : Reads arg := by
  have hmark := parsedMark_of_parseMark h
  obtain ⟨m, hm⟩ := exists_denotes hrational hmark
  exact .mark m hletter hm ((parsedMark_iff hm _).mp hmark).1

theorem reads_of_accepts (hoption : isOption arg = true) (hrational : IsMark arg → HasRational arg)
    (h : Accepts .exact arg) : Reads arg := by
  obtain ⟨c, c', h⟩ := h
  cases parseoption_cases h with
  | bufferSize v hletter hv => exact .of_parseSize (by simp [hletter]) hv
  | requestSize v hletter hv => exact .of_parseSize (by simp [hletter]) hv
  | pipeSize v hletter hv => exact .of_parseSize (by simp [hletter]) hv
  | highWaterMark i d hletter hmark =>
    have hrational := hrational (.inl (hasLetter_of_isOption hoption hletter))
    exact .of_parseMark (by simp [hletter]) hrational hmark
  | lowWaterMark i d hletter hmark =>
    have hrational := hrational (.inr (hasLetter_of_isOption hoption hletter))
    exact .of_parseMark (by simp [hletter]) hrational hmark
  | cache hletter => exact .cache hletter
  | inputStats hletter hwhich => exact .stats hletter (by simp [hwhich])
  | outputStats hletter hwhich => exact .stats hletter (by simp [hwhich])
  | stats hletter hwhich => exact .stats hletter (by simp [hwhich])

theorem accepts_of_sets {fl : Rounding} {c : Config} (h : Sets fl .initial arg c) : Accepts fl arg :=
  ⟨.initial, c, parseoption_of_sets h⟩

theorem accepts_of_reads (h : Reads arg) : Accepts .exact arg := by
  cases h with
  | size n e hletter hsize hpos =>
    have hparse : ∀ what, parseSize what (arg.drop 2) = .ok (longMul (strtol n.value) (1024 ^ e)) := by
      intro what
      rw [parseSize_size what hsize, if_neg (by omega)]
    simp only [List.mem_cons, List.not_mem_nil, or_false] at hletter
    obtain hletter | hletter | hletter := hletter
    . exact accepts_of_sets (.bufferSize _ hletter (hparse _))
    . exact accepts_of_sets (.requestSize _ hletter (hparse _))
    . exact accepts_of_sets (.pipeSize _ hletter (hparse _))
  | mark m hletter hdenotes hreadable =>
    have hparse : ∀ i, ∃ j d, parseMark .exact arg i = .ok (j, d) := by
      intro i
      have hmark := (parsedMark_iff hdenotes _).mpr ⟨hreadable, rfl⟩
      rw [← map_parseMark .exact arg i] at hmark
      obtain ⟨⟨j, d⟩, hmark, _⟩ := Fold.exists_of_map_ok hmark
      exact ⟨j, d, hmark⟩
    simp only [List.mem_cons, List.not_mem_nil, or_false] at hletter
    obtain hletter | hletter := hletter
    . obtain ⟨j, d, hmark⟩ := hparse Config.initial.iHighWaterMark
      exact accepts_of_sets (.highWaterMark j d hletter hmark)
    . obtain ⟨j, d, hmark⟩ := hparse Config.initial.iLowWaterMark
      exact accepts_of_sets (.lowWaterMark j d hletter hmark)
  | cache hletter => exact accepts_of_sets (.cache hletter)
  | stats hletter hwhich =>
    simp only [List.mem_cons, List.not_mem_nil, or_false] at hwhich
    obtain hwhich | hwhich | hwhich := hwhich
    . exact accepts_of_sets (.inputStats hletter hwhich)
    . exact accepts_of_sets (.outputStats hletter hwhich)
    . exact accepts_of_sets (.stats hletter hwhich)

end Reads

def LastMark (l : Char) (default : Level) (args : List CString) (m : Level) : Prop :=
  match Fold.lastOf (hasLetter l) args with
  | none => m = default
  | some cp => Denotes cp m

/--
A command line with input and output, any options and any sizes and percentages for `-h` and `-l`.
`bufferSize` is the final size of the buffer, `high` and `low` are the final marks.
-/
structure Marked (args : List CString) (bufferSize : Int) (high low : Level) : Prop where
  streams : 2 ≤ (names args).length
  rational (arg : CString) : arg ∈ args → IsMark arg → HasRational arg
  size : Fold.decided (hasLetter 'b') parseBufferSize 65536 args = .ok bufferSize
  high : LastMark 'h' (.absolute 0 0) args high
  low : LastMark 'l' (.relative 100) args low

def Fraction (d : Double) : Prop := ∃ q, d = .rat q ∧ 0 ≤ q ∧ q ≤ 1

/--
Marks out of range end in a syntax error, all others reach the constructor as fractions that it takes,
and so it never throws. Nothing on the way is undefined.
-/
structure Validated (args : List CString) (bufferSize : Int) (high low : Level) : Prop where
  refused : high.OutOfRange bufferSize ∨ low.OutOfRange bufferSize → exitCode (main .exact args) = some 49
  accepted : ¬ (high.OutOfRange bufferSize ∨ low.OutOfRange bufferSize) →
    ∀ s, settings .exact args = .ok (some s) →
      Fraction s.config.dHighWaterMark ∧ Fraction s.config.dLowWaterMark ∧ ∃ t, construct .exact s = .ok t
  unreachable : exitCode (main .exact args) ≠ some 19
  defined : main .exact args ≠ .error .undefined

section Marks

variable {args : List CString} {bufferSize : Int} {high low m : Level} {l : Char} {mark : Mark}

theorem main_of_settings_error {fl : Rounding} {f : Failure} (h : settings fl args = .error f) :
    main fl args = .error f := by
  unfold main
  rw [h]
  rfl

theorem Validated.of_error {f : Failure} (h : settings .exact args = .error f) (hthrown : IsSyntaxError f) :
    Validated args bufferSize high low := by
  obtain ⟨what, rfl⟩ := hthrown
  have hmain := main_of_settings_error h
  constructor
  . intro _
    rw [hmain]
    rfl
  . intro _ s hs
    rw [h] at hs
    cases hs
  . rw [hmain]
    simp [exitCode]
  . rw [hmain]
    simp

theorem decided_mark {default : Level} (h : LastMark l default args m)
    (hmark : Fold.decided (hasLetter l) (parsedMark .exact) default.mark args = .ok mark) :
    mark = m.mark := by
  unfold LastMark at h
  unfold Fold.decided at hmark
  split at h
  . next hnone =>
    rw [hnone, ← h] at hmark
    cases hmark
    rfl
  . next cp hlast =>
    rw [hlast] at hmark
    exact ((parsedMark_iff h mark).mp hmark).2

theorem fraction_of_above (what : String) (h : m.Above bufferSize) :
    ∃ f, m.mark.fraction .exact what bufferSize = .error f := by
  cases m with
  | absolute n e =>
    have habove : longMul (strtol n) (1024 ^ e) > bufferSize := h
    simp only [Level.mark, Mark.fraction]
    rw [if_pos habove]
    exact ⟨_, rfl⟩
  | relative q => cases h

theorem fraction_of_not_above (what : String) (h : ¬ m.Above bufferSize) :
    m.mark.fraction .exact what bufferSize = .ok (.rat (m.part bufferSize)) := by
  cases m with
  | absolute n e =>
    have hle : ¬ longMul (strtol n) (1024 ^ e) > bufferSize := h
    simp only [Level.mark, Mark.fraction]
    rw [if_neg hle]
    rfl
  | relative q => rfl

theorem fitsInt_longMul (a b : Int) : FitsInt (longMul a b) := by
  have hle := @Int.le_bmod (a * b) (2 ^ 32) (by decide)
  have hlt := @Int.bmod_lt (a * b) (2 ^ 32) (by decide)
  unfold FitsInt longMul
  omega

theorem parseint_fits {src : CString} {v : Int} (h : parseint src = .ok v) : FitsInt v := by
  obtain ⟨n, e, _, rfl⟩ := sizeText_of_parseint h
  apply fitsInt_longMul

theorem bufferSize_fits (h : Fold.decided (hasLetter 'b') parseBufferSize 65536 args = .ok bufferSize) :
    FitsInt bufferSize := by
  unfold Fold.decided at h
  split at h
  . rw [← Except.ok.inj h]
    unfold FitsInt
    decide
  . exact parseint_fits (parseSize_cases h).1

theorem part_of_inRange (hpos : 1 ≤ bufferSize) (hfits : FitsInt bufferSize)
    (h : ¬ m.OutOfRange bufferSize) :
    ¬ m.Above bufferSize ∧ 0 ≤ m.part bufferSize ∧ m.part bufferSize ≤ 1 := by
  cases m with
  | absolute n e =>
    simp only [Level.OutOfRange, not_or, Int.not_lt] at h
    have hsame : longMul (strtol n) (1024 ^ e) = n * 1024 ^ e := by
      rw [longMul_eq_iff]
      unfold FitsInt at *
      omega
    have hsize : (0 : Rat) < bufferSize := by
      exact_mod_cast hpos
    simp only [Level.Above, Level.part, hsame]
    refine ⟨by omega, ?_, ?_⟩
    . apply div_nonneg
      . exact_mod_cast h.1
      . exact le_of_lt hsize
    . rw [div_le_one hsize]
      exact_mod_cast h.2
  | relative q =>
    simp only [Level.OutOfRange, not_or, not_lt] at h
    simp only [Level.Above, Level.part, not_false_eq_true, true_and]
    constructor
    . linarith [h.1]
    . linarith [h.2]

theorem part2Bytes_of_part (bufferSize : Int) {q : Rat} (h : 0 ≤ q ∧ q ≤ 1) :
    ∃ n, part2Bytes .exact bufferSize (.rat q) = .ok n := by
  have hrange : ((Double.rat q).lt 0 || (Double.rat q).gt 1) = false := by
    simp only [Double.lt, Double.gt, Bool.or_eq_false_iff, decide_eq_false_iff_not, not_lt]
    exact h
  unfold part2Bytes
  rw [hrange]
  exact ⟨_, rfl⟩

theorem part2Bytes_fails (bufferSize : Int) (d : Double) :
    Fold.FailsOnly (fun f => ¬ IsSyntaxError f) (part2Bytes .exact bufferSize d) := by
  rintro f h ⟨what, rfl⟩
  unfold part2Bytes at h
  split at h
  . cases h
  . split at h <;> cases h

theorem construct_fails (s : Settings) :
    Fold.FailsOnly (fun f => ¬ IsSyntaxError f) (construct .exact s) := by
  unfold construct
  apply (part2Bytes_fails _ _).bind
  intro low
  apply (part2Bytes_fails _ _).bind
  intro high
  apply Fold.FailsOnly.ok

theorem main_of_settings {fl : Rounding} {s : Settings} (h : settings fl args = .ok (some s)) :
    main fl args = (construct fl s).map some := by
  unfold main
  rw [h]
  simp only [bind, Except.bind]
  cases construct fl s <;> rfl

theorem exitCode_construct (s : Settings) : exitCode ((construct .exact s).map some) ≠ some 49 := by
  cases hconstruct : construct .exact s with
  | ok t => simp [Except.map, exitCode]
  | error f =>
    have hfails := construct_fails s f hconstruct
    cases f with
    | syntaxError what => exact absurd ⟨what, rfl⟩ hfails
    | invalidArgument what => simp [Except.map, exitCode]
    | undefined => simp [Except.map, exitCode]

structure Finished (c : Config) (bufferSize : Int) (high low : Level) : Prop where
  bufferSize : c.bufferSize = bufferSize
  high : c.highMark = high.mark
  low : c.lowMark = low.mark

theorem finished_of_loop {s : Arguments} (h : Marked args bufferSize high low)
    (hloop : args.foldlM (argument .exact) .initial = .ok s) : Finished s.config bufferSize high low := by
  have hdescribes := describes_of_loop hloop
  constructor
  . exact Except.ok.inj (hdescribes.bufferSize.symm.trans h.size)
  . exact decided_mark h.high hdescribes.highMark
  . have hdefault : (Level.relative 100).mark = .relative (.rat 1) := by
      norm_num [Level.mark]
    apply decided_mark h.low
    rw [hdefault]
    exact hdescribes.lowMark

theorem streams_of_loop {fl : Rounding} {s : Arguments} (h : args.foldlM (argument fl) .initial = .ok s)
    (hnames : (names args).length = 2) :
    ∃ input output, s.input = some input ∧ s.output = some output := by
  obtain ⟨input, output, htwo⟩ := List.length_eq_two.mp hnames
  have htaken := (loop_names h fun _ => rfl).2
  rw [htwo] at htaken
  exact ⟨input, output, Arguments.of_taken htaken⟩

theorem settings_of_loop {fl : Rounding} {s : Arguments} (h : args.foldlM (argument fl) .initial = .ok s)
    {input output : CString} (hinput : s.input = some input) (houtput : s.output = some output) :
    settings fl args = (calculations fl s.config).map fun config => some { input, output, config } := by
  unfold settings
  rw [h]
  simp only [bind, Except.bind, hinput, houtput]
  cases calculations fl s.config <;> rfl

theorem Finished.calculations_error {c : Config} (h : Finished c bufferSize high low)
    (habove : high.Above bufferSize ∨ low.Above bufferSize) : ∃ f, calculations .exact c = .error f := by
  rw [calculations_eq, h.high, h.low, h.bufferSize]
  by_cases hhigh : high.Above bufferSize
  . obtain ⟨f, hf⟩ := fraction_of_above highTooLarge hhigh
    rw [hf]
    exact ⟨f, rfl⟩
  . rw [fraction_of_not_above highTooLarge hhigh]
    obtain ⟨f, hf⟩ := fraction_of_above lowTooLarge (habove.resolve_left hhigh)
    rw [hf]
    exact ⟨f, rfl⟩

theorem Finished.calculations_ok {c : Config} (h : Finished c bufferSize high low)
    (habove : ¬ (high.Above bufferSize ∨ low.Above bufferSize)) :
    ∃ d, calculations .exact c = .ok d ∧ d.bufferSize = bufferSize ∧
      d.dHighWaterMark = .rat (high.part bufferSize) ∧ d.dLowWaterMark = .rat (low.part bufferSize) := by
  rw [not_or] at habove
  rw [calculations_eq, h.high, h.low, h.bufferSize]
  rw [fraction_of_not_above highTooLarge habove.1, fraction_of_not_above lowTooLarge habove.2]
  exact ⟨_, rfl, rfl, rfl, rfl⟩

/--
What the options make of a command line before the final marks are looked at.
-/
def Rejected (args : List CString) : Prop :=
  (∃ arg ∈ args, isOption arg = true ∧ ¬ Reads arg) ∨ 2 < (names args).length

theorem rejected_iff (h : ∀ arg ∈ args, IsMark arg → HasRational arg) :
    Rejected args ↔ ¬ ∃ s, args.foldlM (argument .exact) .initial = .ok s := by
  have hreads : ∀ arg ∈ args, isOption arg = true → (Accepts .exact arg ↔ Reads arg) := by
    intro arg harg hoption
    constructor
    . exact reads_of_accepts hoption (h arg harg)
    . exact accepts_of_reads
  rw [loop_ok_iff (fun _ => rfl)]
  simp only [Arguments.taken, Arguments.initial, Option.toList_none, List.append_nil, List.nil_append]
  unfold Rejected
  constructor
  . rintro (⟨arg, harg, hoption, hnot⟩ | hlt) ⟨haccepts, hle⟩
    . rw [← hreads arg harg hoption] at hnot
      exact hnot (haccepts arg harg hoption)
    . omega
  . intro hnot
    by_contra hrejected
    rw [not_or] at hrejected
    apply hnot
    refine ⟨?_, by omega⟩
    intro arg harg hoption
    rw [hreads arg harg hoption]
    by_contra hnotreads
    exact hrejected.1 ⟨arg, harg, hoption, hnotreads⟩

theorem unreported_iff {arg : CString} (hrational : IsMark arg → HasRational arg) :
    Unreported .exact arg ↔ IsMark arg ∧ ∃ q, Denotes arg (.relative q) ∧ ¬ (Level.relative q).Readable := by
  constructor
  . rintro ⟨hmark, hrelative, x, hx, hrange⟩
    obtain ⟨q, rfl⟩ := hrational hmark hrelative x hx
    refine ⟨hmark, q, .relative q hrelative hx, ?_⟩
    rw [← readable_iff, hrange]
    decide
  . rintro ⟨hmark, q, hdenotes, hnot⟩
    rw [← readable_iff, Bool.not_eq_false] at hnot
    cases hdenotes with
    | relative _ hrelative hx => exact ⟨hmark, hrelative, _, hx, hnot⟩

/--
The first argument that is not taken is a percentage out of the range that the option tests, for which
there is no message.
-/
def Unanswered (args : List CString) : Prop :=
  ∃ pre arg post q, args = pre ++ arg :: post ∧ ¬ Rejected pre ∧ IsMark arg ∧
    Denotes arg (.relative q) ∧ ¬ (Level.relative q).Readable

theorem unanswered_iff (h : ∀ arg ∈ args, IsMark arg → HasRational arg) :
    Unanswered args ↔ ReachesUnreported .exact args := by
  constructor
  . rintro ⟨pre, arg, post, q, rfl, hpre, hmark, hdenotes, hnot⟩
    rw [rejected_iff, not_not] at hpre
    . obtain ⟨s, hs⟩ := hpre
      refine ⟨pre, arg, post, s, rfl, hs, ?_⟩
      rw [unreported_iff (h arg (by simp))]
      exact ⟨hmark, q, hdenotes, hnot⟩
    . intro arg harg
      apply h
      simp [harg]
  . rintro ⟨pre, arg, post, s, rfl, hs, hunreported⟩
    rw [unreported_iff (h arg (by simp))] at hunreported
    obtain ⟨hmark, q, hdenotes, hnot⟩ := hunreported
    refine ⟨pre, arg, post, q, rfl, ?_, hmark, hdenotes, hnot⟩
    rw [rejected_iff, not_not]
    . exact ⟨s, hs⟩
    . intro arg harg
      apply h
      simp [harg]

theorem validated_of_part {s : Settings} (h : settings .exact args = .ok (some s))
    (hhigh : s.config.dHighWaterMark = .rat (high.part bufferSize))
    (hlow : s.config.dLowWaterMark = .rat (low.part bufferSize))
    (hin : ¬ (high.OutOfRange bufferSize ∨ low.OutOfRange bufferSize))
    (hhighPart : 0 ≤ high.part bufferSize ∧ high.part bufferSize ≤ 1)
    (hlowPart : 0 ≤ low.part bufferSize ∧ low.part bufferSize ≤ 1) :
    Validated args bufferSize high low := by
  obtain ⟨l, hl⟩ := part2Bytes_of_part s.config.bufferSize hlowPart
  obtain ⟨r, hr⟩ := part2Bytes_of_part s.config.bufferSize hhighPart
  have hconstruct : construct .exact s = .ok { settings := s, lowWaterMark := l, highWaterMark := r } := by
    unfold construct
    rw [hlow, hl, hhigh, hr]
    rfl
  constructor
  . intro hout
    contradiction
  . intro _ s' hs'
    rw [h] at hs'
    cases hs'
    exact ⟨⟨_, hhigh, hhighPart⟩, ⟨_, hlow, hlowPart⟩, _, hconstruct⟩
  . rw [main_of_settings h, hconstruct]
    simp [Except.map, exitCode]
  . rw [main_of_settings h, hconstruct]
    simp [Except.map]

theorem not_validated_of_unanswered (h : Marked args bufferSize high low) (hunanswered : Unanswered args) :
    ¬ Validated args bufferSize high low := by
  intro hvalidated
  rw [unanswered_iff h.rational] at hunanswered
  apply hvalidated.defined
  exact main_of_settings_error (settings_unreported hunanswered)

theorem validated_of_rejected (h : Marked args bufferSize high low) (hanswered : ¬ Unanswered args)
    (hrejected : Rejected args) : Validated args bufferSize high low := by
  rw [rejected_iff h.rational] at hrejected
  cases hloop : args.foldlM (argument .exact) .initial with
  | ok s => exact absurd ⟨s, hloop⟩ hrejected
  | error f =>
    have hsettings : settings .exact args = .error f := by
      unfold settings
      rw [hloop]
      rfl
    obtain hthrown | ⟨_, hreaches⟩ := settings_fails .exact args f hsettings
    . exact .of_error hsettings hthrown
    . rw [unanswered_iff h.rational] at hanswered
      contradiction

theorem Finished.validated_iff_above {s : Arguments} (h : Finished s.config bufferSize high low)
    (hsize : Fold.decided (hasLetter 'b') parseBufferSize 65536 args = .ok bufferSize)
    {input output : CString} (hsettings : settings .exact args =
      (calculations .exact s.config).map fun config => some { input, output, config }) :
    Validated args bufferSize high low ↔
      high.Above bufferSize ∨ low.Above bufferSize ∨
        ¬ (high.OutOfRange bufferSize ∨ low.OutOfRange bufferSize) := by
  rw [← or_assoc]
  by_cases habove : high.Above bufferSize ∨ low.Above bufferSize
  . apply iff_of_true _ (.inl habove)
    obtain ⟨f, hf⟩ := h.calculations_error habove
    rw [hf] at hsettings
    exact .of_error hsettings (calculations_fails .exact _ f hf)
  obtain ⟨d, hcalc, _, hhigh, hlow⟩ := h.calculations_ok habove
  rw [hcalc] at hsettings
  constructor
  . intro hvalidated
    right
    intro hout
    have hcode := hvalidated.refused hout
    rw [main_of_settings hsettings] at hcode
    exact exitCode_construct _ hcode
  . intro hcond
    have hin := hcond.resolve_left habove
    have hpos := bufferSize_pos hsize
    have hfits := bufferSize_fits hsize
    apply validated_of_part hsettings hhigh hlow hin
    . exact (part_of_inRange hpos hfits (not_or.mp hin).1).2
    . exact (part_of_inRange hpos hfits (not_or.mp hin).2).2

end Marks

def MarksAreValidated : Prop :=
  ∀ args bufferSize high low, Marked args bufferSize high low → Validated args bufferSize high low

theorem validated_iff (args : List CString) (bufferSize : Int) (high low : Level)
    (h : Marked args bufferSize high low) :
    Validated args bufferSize high low ↔
      ¬ Unanswered args ∧
        (Rejected args ∨ high.Above bufferSize ∨ low.Above bufferSize ∨
          ¬ (high.OutOfRange bufferSize ∨ low.OutOfRange bufferSize)) := by
  by_cases hunanswered : Unanswered args
  . apply iff_of_false
    . exact not_validated_of_unanswered h hunanswered
    . exact fun hcond => hcond.1 hunanswered
  by_cases hrejected : Rejected args
  . apply iff_of_true
    . exact validated_of_rejected h hunanswered hrejected
    . exact ⟨hunanswered, .inl hrejected⟩
  have hnames : (names args).length = 2 := by
    have hstreams := h.streams
    unfold Rejected at hrejected
    omega
  simp only [hunanswered, hrejected, not_false_eq_true, true_and, false_or]
  rw [rejected_iff h.rational, not_not] at hrejected
  obtain ⟨s, hloop⟩ := hrejected
  obtain ⟨input, output, hinput, houtput⟩ := streams_of_loop hloop hnames
  have hsettings := settings_of_loop hloop hinput houtput
  exact (finished_of_loop h hloop).validated_iff_above h.size hsettings

def tooHighOption : CString where
  chars := ['-', 'h', '=', '1', '5', '0', '%']
  nonzero := List.all_iff_forall_prop.mp (by decide)
  fits := by decide

def tooHighArgs : List CString := [tooHighOption, standardStream, standardStream]

theorem denotes_tooHighOption : Denotes tooHighOption (.relative 150) :=
  denotes_of_any rfl (by decide +kernel)

theorem marked_tooHighArgs : Marked tooHighArgs 65536 (.relative 150) (.relative 100) where
  streams := by decide
  rational := by
    intro arg harg hmark hrelative x hx
    simp only [tooHighArgs, List.mem_cons, List.not_mem_nil, or_false] at harg
    obtain rfl | rfl | rfl := harg
    . have hparse := denotes_tooHighOption
      cases hparse with
      | relative q _ hq =>
        rw [hq] at hx
        cases hx
        exact ⟨_, rfl⟩
    . cases hrelative
    . cases hrelative
  size := rfl
  high := denotes_tooHighOption
  low := rfl

theorem exitCode_tooHighArgs : exitCode (main .exact tooHighArgs) = some 19 := by decide +kernel

theorem not_marksAreValidated : ¬ MarksAreValidated := by
  intro h
  have hvalidated := h _ _ _ _ marked_tooHighArgs
  exact hvalidated.unreachable exitCode_tooHighArgs

theorem not_rejected_tooHighArgs : ¬ Rejected tooHighArgs := by
  rw [rejected_iff marked_tooHighArgs.rational, not_not]
  have hrun : (tooHighArgs.foldlM (argument .exact) .initial).isOk = true := by decide +kernel
  cases hloop : tooHighArgs.foldlM (argument .exact) .initial with
  | ok s => exact ⟨s, rfl⟩
  | error f =>
    rw [hloop] at hrun
    cases hrun

theorem validated_iff_tooHighArgs :
    ¬ Validated tooHighArgs 65536 (.relative 150) (.relative 100) := by
  rw [validated_iff _ _ _ _ marked_tooHighArgs]
  rintro ⟨_, hrejected | habove | habove | hin⟩
  . exact not_rejected_tooHighArgs hrejected
  . cases habove
  . cases habove
  . apply hin
    left
    right
    decide +kernel

end CommandLine
