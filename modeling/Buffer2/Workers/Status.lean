import Buffer2.PerfCount.Basic
import Buffer2.Workers.Statistics

/-!
This module contains the status lines that the workers print: one whenever enough bytes and enough time
have passed since the last one, and one at the end.
-/

namespace Double

def rounded (round : Rat → Rat) (x : Double) : Double := x.map fun q => .rat (round q)

def add (x : Double) (q : Rat) : Double := x.map fun r => .rat (r + q)

def div (x : Double) (q : Rat) : Double := x.map fun r => .rat (r / q)

def quotient (q : Rat) (x : Double) : Double :=
  match x with
  | .rat r => .ratio q r
  | .inf _ => .rat 0
  | .nan => .nan

def ge (x y : Double) : Bool :=
  match x, y with
  | .rat r, .rat q => q ≤ r
  | .inf negative, .rat _ => !negative
  | .rat _, .inf negative => negative
  | .inf negative, .inf negative' => !negative || negative'
  | _, _ => false

end Double

structure Statistics where
  fullCount : UInt32
  emptyCount : UInt32
  deriving DecidableEq

/--
What a status line shows, and the time `secs` that it has been computed with.
-/
structure StatusLine where
  secs : Double
  kib : BitVec 64
  rate : Double
  blockSize : Double
  statistics : Statistics
  deriving DecidableEq

structure Status where
  stats : PerfCount.Session
  nextstat : Double
  statbytes : BitVec 32

namespace Status

def statsUpdate : Rat := 3 / 10

def statusBytes : Nat := 256 * 1024

section

variable (platform : Platform) (round : Rat → Rat)

def getSeconds (p : PerfCount) : Double :=
  (Double.ratio (round p.elapsed.toNat) p.freq.toInt).rounded round

def getAvgBlockSize (p : PerfCount) : Double :=
  (Double.ratio (round p.bytesSoFar.toNat) p.loops.toNat).rounded round

def line (p : PerfCount) (statistics : Statistics) : StatusLine where
  secs := getSeconds round p
  kib := p.bytesSoFar / 1024
  rate := ((Double.quotient (round p.bytesSoFar.toNat) (getSeconds round p)).rounded round).div 1024
  blockSize := (getAvgBlockSize round p).div 1024
  statistics := statistics

def init (p : PerfCount) : Status where
  stats := .init platform p
  nextstat := .rat (round statsUpdate)
  statbytes := 0

def account (s : Status) (len : Nat) (statistics : Statistics) : Status × Option StatusLine :=
  let stats := (s.stats.step platform (.update len)).1
  let statbytes := s.statbytes + BitVec.ofNat 32 len
  if statusBytes < statbytes.toNat then
    let stats := (stats.timeCheck platform).1
    let secs := getSeconds round stats.count
    if secs.ge s.nextstat then
      ({ stats
         nextstat := (secs.add (round statsUpdate)).rounded round
         statbytes := 0 }, some (line round stats.count statistics))
    else
      ({ s with stats, statbytes := 0 }, none)
  else
    ({ s with stats, statbytes }, none)

def finish (s : Status) (statistics : Statistics) : StatusLine :=
  line round (s.stats.timeCheck platform).1.count statistics

def machine : Machine Status (Nat × Statistics) (Option StatusLine) where
  step s x := some (s.account platform round x.1 x.2)

end

theorem bytesSoFar_timeCheck (platform : Platform) (stats : PerfCount.Session) :
    (stats.timeCheck platform).1.count.bytesSoFar = stats.count.bytesSoFar := by
  unfold PerfCount.Session.timeCheck
  split <;> rfl

section Account

variable {platform : Platform} {round : Rat → Rat} {s s' : Status} {len : Nat} {statistics : Statistics}
variable {l : Option StatusLine}

/--
The time at which the next line is due after `lines`.
-/
def due (round : Rat → Rat) (lines : List StatusLine) : Double :=
  match lines.getLast? with
  | none => .rat (round statsUpdate)
  | some l => (l.secs.add (round statsUpdate)).rounded round

inductive Accounts (round : Rat → Rat) (s : Status) (len : Nat) : Status → Option StatusLine → Prop
  | counts (s' : Status) (hle : (s.statbytes + BitVec.ofNat 32 len).toNat ≤ statusBytes)
      (hstatbytes : s'.statbytes = s.statbytes + BitVec.ofNat 32 len) (hnextstat : s'.nextstat = s.nextstat) :
    Accounts round s len s' none
  | waits (s' : Status) (hstatbytes : s'.statbytes = 0) (hnextstat : s'.nextstat = s.nextstat) :
    Accounts round s len s' none
  | prints (s' : Status) (l : StatusLine)
      (hlt : statusBytes < (s.statbytes + BitVec.ofNat 32 len).toNat) (hstatbytes : s'.statbytes = 0)
      (hdue : l.secs.ge s.nextstat = true) (hnextstat : s'.nextstat = due round [l])
      (hkib : l.kib = s'.stats.count.bytesSoFar / 1024) :
    Accounts round s len s' (some l)

theorem account_cases (h : s.account platform round len statistics = (s', l)) :
    Accounts round s len s' l ∧
      s'.stats.count.bytesSoFar = s.stats.count.bytesSoFar + BitVec.ofNat 64 len := by
  unfold account at h
  simp only at h
  split at h
  next hlt =>
    split at h
    next hdue =>
      cases h
      refine ⟨.prints _ _ hlt rfl hdue rfl rfl, ?_⟩
      rw [bytesSoFar_timeCheck]
      rfl
    next =>
      cases h
      refine ⟨.waits _ rfl rfl, ?_⟩
      show (PerfCount.Session.timeCheck platform _).1.count.bytesSoFar = _
      rw [bytesSoFar_timeCheck]
      rfl
  next hle =>
    cases h
    exact ⟨.counts _ (by omega) rfl rfl, rfl⟩

end Account

section Runs

variable {platform : Platform} {round : Rat → Rat} {s s' : Status} {p : PerfCount}
variable {tr : List ((Nat × Statistics) × Option StatusLine)} {y : (Nat × Statistics) × Option StatusLine}

def lines (tr : List ((Nat × Statistics) × Option StatusLine)) : List StatusLine := tr.filterMap Prod.snd

def passed (tr : List ((Nat × Statistics) × Option StatusLine)) : Nat := (tr.map fun y => y.1.1).sum

theorem lines_append (tr tr' : List ((Nat × Statistics) × Option StatusLine)) :
    lines (tr ++ tr') = lines tr ++ lines tr' := List.filterMap_append

theorem passed_snoc : passed (tr ++ [y]) = passed tr + y.1.1 := by
  simp [passed]

theorem due_snoc (ls : List StatusLine) (l : StatusLine) : due round (ls ++ [l]) = due round [l] := by
  simp [due]

/--
`P` holds of every element and what stands before it.
-/
def Throughout {α : Type} (P : List α → α → Prop) (l : List α) : Prop :=
  ∀ done x rest, l = done ++ x :: rest → P done x

theorem throughout_nil {α : Type} {P : List α → α → Prop} : Throughout P [] := by
  simp [Throughout]

theorem Throughout.snoc {α : Type} {P : List α → α → Prop} {l : List α} {a : α} (h : Throughout P l)
    (ha : P l a) : Throughout P (l ++ [a]) := by
  intro done x rest hsplit
  cases rest using List.reverseRecOn with
  | nil =>
    obtain ⟨rfl, hsame⟩ := List.append_inj' hsplit rfl
    cases hsame
    exact ha
  | append_singleton rest z =>
    rw [← List.cons_append, ← List.append_assoc] at hsplit
    obtain ⟨hsplit, _⟩ := List.append_inj' hsplit rfl
    exact h done x rest hsplit

structure Reported (round : Rat → Rat) (tr : List ((Nat × Statistics) × Option StatusLine)) (s : Status) :
    Prop where
  bytes : s.stats.count.bytesSoFar = BitVec.ofNat 64 (passed tr)
  next : s.nextstat = due round (lines tr)
  spaced : Throughout (fun done l => l.secs.ge (due round done) = true) (lines tr)
  shown : Throughout (fun done y => ∀ l ∈ y.2, l.kib = BitVec.ofNat 64 (passed (done ++ [y])) / 1024) tr

theorem reported_init : Reported round [] (init platform round p) where
  bytes := by cases platform <;> rfl
  next := rfl
  spaced := throughout_nil
  shown := throughout_nil

theorem Reported.step {x : Nat × Statistics} {l : Option StatusLine} (h : Reported round tr s)
    (hstep : (machine platform round).step s x = some (s', l)) : Reported round (tr ++ [(x, l)]) s' := by
  obtain ⟨haccounts, hbytes⟩ := account_cases (Option.some.inj hstep)
  have hpassed : s'.stats.count.bytesSoFar = BitVec.ofNat 64 (passed (tr ++ [(x, l)])) := by
    rw [hbytes, h.bytes, passed_snoc, BitVec.ofNat_add]
  have hlines : lines (tr ++ [(x, l)]) = lines tr ++ l.toList := by
    rw [lines_append]
    cases l <;> rfl
  cases haccounts with
  | counts _ _ hnextstat | waits _ hnextstat =>
    rw [Option.toList_none, List.append_nil] at hlines
    refine ⟨hpassed, ?_, ?_, h.shown.snoc (by simp)⟩
    . rw [hlines, hnextstat]
      exact h.next
    . rw [hlines]
      exact h.spaced
  | prints l _ _ hdue hnextstat hkib =>
    rw [Option.toList_some] at hlines
    refine ⟨hpassed, ?_, ?_, h.shown.snoc ?_⟩
    . rw [hlines, due_snoc]
      exact hnextstat
    . rw [hlines]
      apply h.spaced.snoc
      rw [← h.next]
      exact hdue
    . rintro _ ⟨⟩
      rw [hkib, hpassed]

theorem reported_runs {G : Status → Nat × Statistics → Prop}
    (hruns : (machine platform round).Runs G (init platform round p) tr s) : Reported round tr s := by
  apply hruns.history (I := Reported round)
  . exact fun _ _ _ _ _ h _ hstep => h.step hstep
  . exact reported_init

theorem toNat_statbytes {len : Nat} (hs : s.statbytes.toNat ≤ statusBytes)
    (hlen : len + statusBytes < 2 ^ 32) :
    (s.statbytes + BitVec.ofNat 32 len).toNat = s.statbytes.toNat + len := by
  rw [BitVec.toNat_add, BitVec.toNat_ofNat]
  omega

theorem lines_le (hfits : ∀ y ∈ tr, y.1.1 + statusBytes < 2 ^ 32)
    (hruns : (machine platform round).Runs Machine.always (init platform round p) tr s) :
    (statusBytes + 1) * (lines tr).length ≤ passed tr := by
  have hcovered : (machine platform round).Amortized
      (fun s x => Machine.always s x ∧ x.1 + statusBytes < 2 ^ 32)
      (fun s => s.statbytes.toNat ≤ statusBytes) (fun s => s.statbytes.toNat)
      (fun y => if y.2.isSome then statusBytes + 1 else 0) (fun y => y.1.1) := by
    constructor
    . rintro s x s' l hs ⟨_, hlen⟩ hstep
      cases (account_cases (Option.some.inj hstep)).1 with
      | counts hle hstatbytes => rwa [hstatbytes]
      | waits hstatbytes | prints _ _ hstatbytes => simp [hstatbytes]
    . rintro s x s' l hs ⟨_, hlen⟩ hstep
      have hsum := toNat_statbytes hs hlen
      cases (account_cases (Option.some.inj hstep)).1 with
      | counts hle hstatbytes =>
        rw [hstatbytes, hsum]
        simp
      | waits hstatbytes => simp [hstatbytes]
      | prints _ hlt hstatbytes =>
        rw [hsum] at hlt
        simp only [hstatbytes, Option.isSome_some, if_true]
        show statusBytes + 1 + 0 ≤ _
        omega
  have hbound := hcovered.runs (hruns.and_of_forall hfits) (Nat.zero_le _)
  have hinit : (init platform round p).statbytes.toNat = 0 := rfl
  have htotal : Machine.total (fun y => y.1.1) tr = passed tr := rfl
  rw [Machine.total_ite, ← List.length_filterMap_eq_countP, hinit, htotal] at hbound
  show (statusBytes + 1) * (tr.filterMap Prod.snd).length ≤ passed tr
  omega

end Runs

def everySecond : Platform := .posix fun k => ⟨BitVec.ofNat 64 k, 0⟩

example : ((machine everySecond id).exec (init everySecond id ⟨0, 0, 0, 0, 0, true⟩)
    [(200000, ⟨0, 0⟩), (100000, ⟨0, 0⟩), (262145, ⟨1, 2⟩)]).map (fun r => (lines r.1).map StatusLine.kib) =
      some [292, 548] := by
  decide +kernel

end Status

namespace Workers

variable {c : Layout} {requestSize : Nat} {stream : List UInt8} {s : Workers c}
variable {tr : List ((Choice ⊕ Choice) × Option (Operation × Event))}

def blockLength (side : Side) (y : Operation × Event) : Option Nat :=
  match side, y.2 with
  | .drain, .wrote bytes => some bytes.length
  | .source, .took bytes => some bytes.length
  | _, _ => none

def blocks (side : Side) (calls : List (Operation × Event)) : List Nat := calls.filterMap (blockLength side)

def bytesOf (side : Side) (calls : List (Operation × Event)) : List UInt8 :=
  match side with
  | .drain => World.written calls
  | .source => World.taken calls

theorem blocks_append (side : Side) (calls calls' : List (Operation × Event)) :
    blocks side (calls ++ calls') = blocks side calls ++ blocks side calls' :=
  List.filterMap_append

theorem sum_blocks (side : Side) (calls : List (Operation × Event)) :
    (blocks side calls).sum = (bytesOf side calls).length := by
  induction calls with
  | nil => cases side <;> rfl
  | cons y calls ih =>
    obtain ⟨a, e⟩ := y
    cases side <;> cases e <;>
      simp_all [blocks, blockLength, bytesOf, World.written, World.taken, List.filterMap_cons]

theorem block_le {w w' : World c} {a : Operation} {e : Event} {side : Side} (hinv : w.Inv)
    (hstep : World.Step w a e w') : ∀ n ∈ blockLength side (a, e), n ≤ c.bufferSize := by
  have hfree := hinv.fifo.wrReq_le_free
  have hread := hinv.fifo.rdReq_le_level
  have hlevel := hinv.fifo.level_le
  cases hstep with
  | commitWrite len _ hlen =>
    cases side <;> simp [blockLength]
    omega
  | commitRead len _ hlen =>
    cases side <;> simp [blockLength]
    omega
  | _ => cases side <;> simp [blockLength]

theorem blocks_le {G : World c → Operation → Prop} {calls : List (Operation × Event)} {w : World c}
    {side : Side} (hruns : (World.machine c).Runs G (World.init c) calls w) :
    ∀ n ∈ blocks side calls, n ≤ c.bufferSize := by
  intro n hn
  obtain ⟨y, hy, hlength⟩ := List.mem_filterMap.mp hn
  refine hruns.forall_mem (I := World.Inv) (P := fun y => ∀ n ∈ blockLength side y, n ≤ c.bufferSize)
    ?_ (World.inv_init c) y hy n hlength
  exact fun w a w' e hinv _ hstep => ⟨hinv.step hstep, block_le hinv (World.step_cases hinv hstep)⟩

theorem length_bytesOf_le (hsize : 0 < requestSize) (side : Side)
    (hruns : (machine c requestSize).Runs Machine.always (init c stream) tr s) :
    (bytesOf side (Machine.calls tr)).length ≤ stream.length := by
  have hwritten := length_written_le hsize hruns
  cases side with
  | drain => exact hwritten
  | source => exact (World.taken_le_written hruns.calls).trans hwritten

/--
The status lines of a worker in a transfer, however it is disturbed. They are rare in bytes and in time,
each one shows what the worker has committed until then, and the last one all of it.
-/
theorem status_lines (side : Side) {platform : Platform} {round : Rat → Rat} {p : PerfCount} {t : Status}
    {accounts : List ((Nat × Statistics) × Option StatusLine)} (hsize : 0 < requestSize)
    (hfits : c.bufferSize + Status.statusBytes < 2 ^ 32)
    (hruns : (machine c requestSize).Runs Machine.always (init c stream) tr s)
    (hstatus : (Status.machine platform round).Runs Machine.always (Status.init platform round p) accounts t)
    (hblocks : accounts.map (fun y => y.1.1) = blocks side (Machine.calls tr)) :
    (Status.statusBytes + 1) * (Status.lines accounts).length ≤ stream.length ∧
      Status.Throughout (fun done l => l.secs.ge (Status.due round done) = true) (Status.lines accounts) ∧
      Status.Throughout (fun done y => ∀ l ∈ y.2,
        l.kib = BitVec.ofNat 64 (Status.passed (done ++ [y])) / 1024) accounts ∧
      ∀ statistics, (t.finish platform round statistics).kib =
        BitVec.ofNat 64 (bytesOf side (Machine.calls tr)).length / 1024 := by
  have hreported := Status.reported_runs hstatus
  have hpassed : Status.passed accounts = (bytesOf side (Machine.calls tr)).length := by
    rw [← sum_blocks, ← hblocks]
    rfl
  refine ⟨?_, hreported.spaced, hreported.shown, ?_⟩
  . have hlengths : ∀ y ∈ accounts, y.1.1 + Status.statusBytes < 2 ^ 32 := by
      intro y hy
      have hmem := List.mem_map_of_mem (f := fun y => y.1.1) hy
      rw [hblocks] at hmem
      have hle := blocks_le hruns.calls y.1.1 hmem
      omega
    calc
      (Status.statusBytes + 1) * (Status.lines accounts).length
        ≤ Status.passed accounts := Status.lines_le hlengths hstatus
      _ ≤ stream.length := by
        rw [hpassed]
        exact length_bytesOf_le hsize side hruns
  . intro statistics
    show (Status.line round _ statistics).kib = _
    rw [← hpassed, ← hreported.bytes, ← Status.bytesSoFar_timeCheck platform]
    rfl

def moved (s : Workers c) (buffer : Nat → UInt8) (pos : InputPos) : Workers c :=
  { s with
    shared := { s.shared with fifo := { s.shared.fifo with buffer } }
    left := { s.left with pos } }

/--
`ReadData` can move any number of bytes that the stream has and the range holds.
-/
theorem runs_bytes {buf len n k : Nat} {s : Workers c} (hpos : s.left.pos = .reading buf len n)
    (hfree : s.shared.drain.free = true) (hlen : n + k ≤ len) (hstream : n + k ≤ s.left.stream.length) :
    ∃ tr buffer,
      (machine c requestSize).Runs Machine.always s tr (s.moved buffer (.reading buf len (n + k))) ∧
        blocks .drain (Machine.calls tr) = [] := by
  induction k with
  | zero =>
    refine ⟨[], s.shared.fifo.buffer, ?_, rfl⟩
    rw [Nat.add_zero, ← hpos]
    exact .nil s
  | succ k ih =>
    obtain ⟨tr, buffer, hruns, hblocks⟩ := ih (by omega) (by omega)
    have hlt : n + k < s.left.stream.length := by omega
    have hroom : n + k < len := by omega
    have hstep : (machine c requestSize).step (s.moved buffer (.reading buf len (n + k))) (.inl .byte) =
        some (s.moved (Function.update buffer (buf + (n + k)) s.left.stream[n + k])
          (.reading buf len (n + (k + 1))), some (.store (buf + (n + k)) s.left.stream[n + k], .stored)) := by
      simp [machine, Machine.compose, Machine.programStep, InputWorker.move, World.machine, World.step, moved,
        StaticFIFO.store, hlt, hroom, hfree, Nat.add_assoc]
    refine ⟨_, _, hruns.snoc trivial hstep, ?_⟩
    rw [Machine.calls_append, blocks_append, hblocks]
    rfl

def holdingAll : Workers .large where
  shared :=
    { fifo := { StaticFIFO.init .large with wrReq := 524288 }
      drain := .holding 4096 524288
      source := .idle }
  left := { InputWorker.init (List.replicate 262145 7) with pos := .reading 4096 524288 0 }
  right := .init

theorem exists_block :
    ∃ tr s, (machine .large 524288).Runs Machine.always (init .large (List.replicate 262145 7)) tr s ∧
      blocks .drain (Machine.calls tr) = [262145] := by
  have hgranted : (machine .large 524288).Runs Machine.always (init .large (List.replicate 262145 7))
      [(.inl .run, none), (.inl .run, some (.requestWrite 524288, .entered)),
        (.inl .run, some (.passWrite, .granted 4096 524288))] holdingAll :=
    .of_exec (fun _ _ _ => trivial) rfl
  have hlength : 0 + 262145 ≤ holdingAll.left.stream.length := List.length_replicate.ge
  obtain ⟨tr, buffer, hbytes, hblocks⟩ := runs_bytes (s := holdingAll) rfl rfl (by decide) hlength
  have hcommitted : (machine .large 524288).Runs Machine.always
      (holdingAll.moved buffer (.reading 4096 524288 (0 + 262145)))
      [(.inl .run, none),
        (.inl .run, some (.commitWrite 4096 262145, .wrote (Memory.slice buffer 4096 262145)))] _ :=
    .of_exec (fun _ _ _ => trivial) rfl
  refine ⟨_, _, (hgranted.append hbytes).append hcommitted, ?_⟩
  simp only [Machine.calls, List.filterMap_append, blocks_append] at hblocks ⊢
  rw [hblocks]
  simp [blocks, blockLength]

/--
The line shows 256 kiB, and so does the last one.
-/
theorem status_lines_large :
    ∃ tr s accounts t,
      (machine .large 524288).Runs Machine.always (init .large (List.replicate 262145 7)) tr s ∧
      (Status.machine Status.everySecond id).Runs Machine.always
        (Status.init Status.everySecond id ⟨0, 0, 0, 0, 0, true⟩) accounts t ∧
      (Status.lines accounts).map StatusLine.kib = [256] ∧
      (Status.statusBytes + 1) * (Status.lines accounts).length ≤ 262145 ∧
      (t.finish Status.everySecond id ⟨0, 1⟩).kib =
        BitVec.ofNat 64 (bytesOf .drain (Machine.calls tr)).length / 1024 := by
  obtain ⟨tr, s, hruns, hblocks⟩ := exists_block
  obtain ⟨accounts, t, hstatus, hlengths, hkib⟩ : ∃ accounts t,
      (Status.machine Status.everySecond id).Runs Machine.always
        (Status.init Status.everySecond id ⟨0, 0, 0, 0, 0, true⟩) accounts t ∧
        accounts.map (fun y => y.1.1) = [262145] ∧ (Status.lines accounts).map StatusLine.kib = [256] := by
    apply Machine.Runs.exists_of_acts [(262145, ⟨0, 0⟩)]
    . exact fun _ _ _ => trivial
    . decide +kernel
  obtain ⟨hrare, _, _, hlast⟩ :=
    status_lines .drain (by decide) (by decide) hruns hstatus (hlengths.trans hblocks.symm)
  rw [List.length_replicate] at hrare
  exact ⟨tr, s, accounts, t, hruns, hstatus, hkib, hrare, hlast ⟨0, 1⟩⟩

end Workers
