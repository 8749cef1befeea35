import Buffer2.Fifo.Threads
import Buffer2.Machine.Section

/-!
This module contains the functions of `StaticFIFO` statement by statement, as the two threads run them under
`StateLock`, and the proof that they do what their atomic steps do.
-/

/--
Where a thread that has the lock is. The numbers are the local variables, `data` and `len` stand for the
arguments.
-/
inductive Point
  | writeEos (len : Nat)
  | writeRem (len : Nat)
  | writeLevel (len rem : Nat)
  | writeWrap (len : Nat)
  | writeData (len rem : Nat)
  | writeReq (data len : Nat)
  | writeFull (len : Nat)
  | writeWait (len : Nat)
  | writeFailed
  | commitWriteData (data len : Nat)
  | commitWriteLen (data len : Nat)
  | commitWriteReq (data len : Nat)
  | commitWritePos (data len : Nat)
  | commitWriteWrap (data len : Nat)
  | commitWriteLevel (data len : Nat)
  | commitWriteMark (data len level : Nat)
  | commitWriteNotify (data len : Nat)
  | commitWriteReturn (data len : Nat)
  | endWriteEos
  | endWriteReq
  | endWriteNotify
  | endWriteReturn
  | readLevel (len : Nat)
  | readWrap (len : Nat)
  | readData (len rem : Nat)
  | readReq (data len : Nat)
  | readEos (len : Nat)
  | readEmpty (len : Nat)
  | readWait (len : Nat)
  | readFailed
  | commitReadData (data len : Nat)
  | commitReadLen (data len : Nat)
  | commitReadReq (data len : Nat)
  | commitReadPos (data len : Nat)
  | commitReadWrap (data len : Nat)
  | commitReadLevel (data len : Nat)
  | commitReadMark (data len level : Nat)
  | commitReadNotify (data len : Nat)
  | commitReadReturn (data len : Nat)
  | endReadEos
  | endReadReq
  | endReadNotify
  | endReadReturn
  deriving DecidableEq, Repr

def Point.side : Point → Side
  | .writeEos _ | .writeRem _ | .writeLevel _ _ | .writeWrap _ | .writeData _ _ | .writeReq _ _ => .drain
  | .writeFull _ | .writeWait _ | .writeFailed => .drain
  | .commitWriteData _ _ | .commitWriteLen _ _ | .commitWriteReq _ _ | .commitWritePos _ _ => .drain
  | .commitWriteWrap _ _ | .commitWriteLevel _ _ | .commitWriteMark _ _ _ => .drain
  | .commitWriteNotify _ _ | .commitWriteReturn _ _ => .drain
  | .endWriteEos | .endWriteReq | .endWriteNotify | .endWriteReturn => .drain
  | _ => .source

namespace World

variable {c : Layout}

def assign (w : World c) (f : StaticFIFO c → StaticFIFO c) : World c := { w with fifo := f w.fifo }

def stmt (k : Point) (w : World c) : World c × (Point ⊕ Event) :=
  match k with
  -- `RequestWrite`
  | .writeEos len =>
    if w.fifo.eos then ({ w with drain := .idle }, .inr .ended) else (w, .inl (.writeRem len))
  | .writeRem len => (w, .inl (.writeLevel len (Word.sub c.wordBits c.bufferSize w.fifo.level)))
  | .writeLevel len rem =>
    if rem > 0 then
      (w, .inl (.writeWrap (if len > rem then rem else len)))
    else
      (w, .inl (.writeFull len))
  | .writeWrap len => (w, .inl (.writeData len (Word.sub c.wordBits c.bufferEnd w.fifo.wrPos)))
  | .writeData len rem => (w, .inl (.writeReq w.fifo.wrPos (if len > rem then rem else len)))
  | .writeReq data len =>
    ({ w with fifo := { w.fifo with wrReq := len }, drain := .holding data len }, .inr (.granted data len))
  | .writeFull len =>
    (w.assign fun f => { f with fullCount := f.fullCount + 1 }, .inl (.writeWait len))
  -- `Wait` releases the lock.
  | .writeWait len => ({ w with drain := .asleep len }, .inr .slept)
  | .writeFailed => ({ w with drain := .idle }, .inr .ended)
  -- `CommitWrite`
  | .commitWriteData data len =>
    if data ≠ w.fifo.wrPos then (w, .inr (.threw .notRequested)) else (w, .inl (.commitWriteLen data len))
  | .commitWriteLen data len =>
    if len > w.fifo.wrReq then
      (w, .inr (.threw .largerThanRequested))
    else
      (w, .inl (.commitWriteReq data len))
  | .commitWriteReq data len => (w.assign fun f => { f with wrReq := 0 }, .inl (.commitWritePos data len))
  | .commitWritePos data len =>
    (w.assign fun f => { f with wrPos := Word.add c.wordBits f.wrPos len }, .inl (.commitWriteWrap data len))
  | .commitWriteWrap data len =>
    (w.assign fun f => { f with wrPos := if f.wrPos = c.bufferEnd then c.bufferBegin else f.wrPos },
      .inl (.commitWriteLevel data len))
  | .commitWriteLevel data len =>
    let level := Word.add c.wordBits w.fifo.level len
    (w.assign fun f => { f with level }, .inl (.commitWriteMark data len level))
  | .commitWriteMark data len level =>
    if level ≥ c.highWaterMark then
      (w, .inl (.commitWriteNotify data len))
    else
      (w, .inl (.commitWriteReturn data len))
  | .commitWriteNotify data len =>
    ({ w with source := w.source.notifyAll }, .inl (.commitWriteReturn data len))
  | .commitWriteReturn data len =>
    ({ w with drain := .idle }, .inr (.wrote (Memory.slice w.fifo.buffer data len)))
  -- `EndWrite`
  | .endWriteEos => (w.assign fun f => { f with eos := true }, .inl .endWriteReq)
  | .endWriteReq => (w.assign fun f => { f with wrReq := 0 }, .inl .endWriteNotify)
  | .endWriteNotify => ({ w with source := w.source.notifyAll }, .inl .endWriteReturn)
  | .endWriteReturn => ({ w with drain := .idle }, .inr .closed)
  -- `RequestRead`
  | .readLevel len =>
    if w.fifo.level > 0 then
      (w, .inl (.readWrap (if len > w.fifo.level then w.fifo.level else len)))
    else
      (w, .inl (.readEos len))
  | .readWrap len => (w, .inl (.readData len (Word.sub c.wordBits c.bufferEnd w.fifo.rdPos)))
  | .readData len rem => (w, .inl (.readReq w.fifo.rdPos (if len > rem then rem else len)))
  | .readReq data len =>
    ({ w with fifo := { w.fifo with rdReq := len }, source := .holding data len }, .inr (.granted data len))
  | .readEos len =>
    if w.fifo.eos then ({ w with source := .idle }, .inr .ended) else (w, .inl (.readEmpty len))
  | .readEmpty len =>
    (w.assign fun f => { f with emptyCount := f.emptyCount + 1 }, .inl (.readWait len))
  | .readWait len => ({ w with source := .asleep len }, .inr .slept)
  | .readFailed => ({ w with source := .idle }, .inr .ended)
  -- `CommitRead`
  | .commitReadData data len =>
    if data ≠ w.fifo.rdPos then (w, .inr (.threw .notRequested)) else (w, .inl (.commitReadLen data len))
  | .commitReadLen data len =>
    if len > w.fifo.rdReq then
      (w, .inr (.threw .largerThanRequested))
    else
      (w, .inl (.commitReadReq data len))
  | .commitReadReq data len => (w.assign fun f => { f with rdReq := 0 }, .inl (.commitReadPos data len))
  | .commitReadPos data len =>
    (w.assign fun f => { f with rdPos := Word.add c.wordBits f.rdPos len }, .inl (.commitReadWrap data len))
  | .commitReadWrap data len =>
    (w.assign fun f => { f with rdPos := if f.rdPos = c.bufferEnd then c.bufferBegin else f.rdPos },
      .inl (.commitReadLevel data len))
  | .commitReadLevel data len =>
    let level := Word.sub c.wordBits w.fifo.level len
    (w.assign fun f => { f with level }, .inl (.commitReadMark data len level))
  | .commitReadMark data len level =>
    if level ≤ c.lowWaterMark then
      (w, .inl (.commitReadNotify data len))
    else
      (w, .inl (.commitReadReturn data len))
  | .commitReadNotify data len =>
    ({ w with drain := w.drain.notifyAll }, .inl (.commitReadReturn data len))
  | .commitReadReturn data len =>
    ({ w with source := .idle }, .inr (.took (Memory.slice w.fifo.buffer data len)))
  -- `EndRead`
  | .endReadEos => (w.assign fun f => { f with eos := true }, .inl .endReadReq)
  | .endReadReq => (w.assign fun f => { f with rdReq := 0 }, .inl .endReadNotify)
  | .endReadNotify => ({ w with drain := w.drain.notifyAll }, .inl .endReadReturn)
  | .endReadReturn => ({ w with source := .idle }, .inr .closed)

/--
Where a thread begins that has got the lock, or has got it again in `Wait`.
-/
def start (w : World c) (a : Operation) : Option Point :=
  match a with
  | .passWrite => w.drain.ready.map .writeEos
  | .failWrite => w.drain.waiting.map fun _ => .writeFailed
  | .commitWrite data len => if w.drain.free then some (.commitWriteData data len) else none
  | .endWrite => if w.drain.free then some .endWriteEos else none
  | .passRead => w.source.ready.map .readLevel
  | .failRead => w.source.waiting.map fun _ => .readFailed
  | .commitRead data len => if w.source.free then some (.commitReadData data len) else none
  | .endRead => if w.source.free then some .endReadEos else none
  | _ => none

def sections (c : Layout) : Sections (World c) Operation Event Point Side where
  thread := Operation.side
  start := start
  stmt := stmt
  threadOf := Point.side

section Atomic

variable {w w' : World c} {a : Operation} {k k' : Point} {e : Event}

theorem exec_passWrite (w : World c) (len : Nat) :
    (sections c).exec 6 (.writeEos len) w = some (w.passWrite len) := by
  by_cases heos : w.fifo.eos = true
  . simp [Sections.exec, sections, stmt, passWrite, StaticFIFO.requestWritePass, heos]
  . by_cases hrem : Word.sub c.wordBits c.bufferSize w.fifo.level > 0
    . simp [Sections.exec, sections, stmt, passWrite, StaticFIFO.requestWritePass, heos, hrem]
    . simp [Sections.exec, sections, stmt, passWrite, StaticFIFO.requestWritePass, assign, heos, hrem]

theorem exec_commitWrite (w : World c) (data len : Nat) :
    (sections c).exec 9 (.commitWriteData data len) w = some (w.commitWrite data len) := by
  by_cases hdata : data = w.fifo.wrPos
  . by_cases hlen : len > w.fifo.wrReq
    . simp [Sections.exec, sections, stmt, commitWrite, StaticFIFO.commitWrite, hdata, hlen]
    . by_cases hmark : Word.add c.wordBits w.fifo.level len ≥ c.highWaterMark
      . simp [Sections.exec, sections, stmt, commitWrite, StaticFIFO.commitWrite, assign, hdata, hlen, hmark,
          Call.notifyIf]
      . simp [Sections.exec, sections, stmt, commitWrite, StaticFIFO.commitWrite, assign, hdata, hlen, hmark,
          Call.notifyIf]
  . simp [Sections.exec, sections, stmt, commitWrite, StaticFIFO.commitWrite, hdata]

theorem exec_endWrite (w : World c) : (sections c).exec 4 .endWriteEos w = some w.endWrite := rfl

theorem exec_passRead (w : World c) (len : Nat) :
    (sections c).exec 5 (.readLevel len) w = some (w.passRead len) := by
  by_cases hlevel : w.fifo.level > 0
  . simp [Sections.exec, sections, stmt, passRead, StaticFIFO.requestReadPass, hlevel]
  . by_cases heos : w.fifo.eos = true
    . simp [Sections.exec, sections, stmt, passRead, StaticFIFO.requestReadPass, hlevel, heos]
    . simp [Sections.exec, sections, stmt, passRead, StaticFIFO.requestReadPass, assign, hlevel, heos]

theorem exec_commitRead (w : World c) (data len : Nat) :
    (sections c).exec 9 (.commitReadData data len) w = some (w.commitRead data len) := by
  by_cases hdata : data = w.fifo.rdPos
  . by_cases hlen : len > w.fifo.rdReq
    . simp [Sections.exec, sections, stmt, commitRead, StaticFIFO.commitRead, hdata, hlen]
    . by_cases hmark : Word.sub c.wordBits w.fifo.level len ≤ c.lowWaterMark
      . simp [Sections.exec, sections, stmt, commitRead, StaticFIFO.commitRead, assign, hdata, hlen, hmark,
          Call.notifyIf]
      . simp [Sections.exec, sections, stmt, commitRead, StaticFIFO.commitRead, assign, hdata, hlen, hmark,
          Call.notifyIf]
  . simp [Sections.exec, sections, stmt, commitRead, StaticFIFO.commitRead, hdata]

theorem exec_endRead (w : World c) : (sections c).exec 4 .endReadEos w = some w.endRead := rfl

theorem exec_of_start (hstart : w.start a = some k) :
    ∃ n r, (sections c).exec n k w = some r ∧ w.step a = some r := by
  cases a with
  | passWrite =>
    obtain ⟨len, hready, rfl⟩ := Option.map_eq_some_iff.mp hstart
    exact ⟨6, _, exec_passWrite w len, by simp [step, hready]⟩
  | failWrite =>
    obtain ⟨len, hwaiting, rfl⟩ := Option.map_eq_some_iff.mp hstart
    exact ⟨1, _, rfl, by simp [step, hwaiting]⟩
  | commitWrite data len =>
    obtain ⟨hfree, ⟨rfl⟩⟩ := Option.ite_none_right_eq_some.mp hstart
    exact ⟨9, _, exec_commitWrite w data len, by simp [step, hfree]⟩
  | endWrite =>
    obtain ⟨hfree, ⟨rfl⟩⟩ := Option.ite_none_right_eq_some.mp hstart
    exact ⟨4, _, exec_endWrite w, by simp [step, hfree]⟩
  | passRead =>
    obtain ⟨len, hready, rfl⟩ := Option.map_eq_some_iff.mp hstart
    exact ⟨5, _, exec_passRead w len, by simp [step, hready]⟩
  | failRead =>
    obtain ⟨len, hwaiting, rfl⟩ := Option.map_eq_some_iff.mp hstart
    exact ⟨1, _, rfl, by simp [step, hwaiting]⟩
  | commitRead data len =>
    obtain ⟨hfree, ⟨rfl⟩⟩ := Option.ite_none_right_eq_some.mp hstart
    exact ⟨9, _, exec_commitRead w data len, by simp [step, hfree]⟩
  | endRead =>
    obtain ⟨hfree, ⟨rfl⟩⟩ := Option.ite_none_right_eq_some.mp hstart
    exact ⟨4, _, exec_endRead w, by simp [step, hfree]⟩
  | requestWrite | wakeWrite | store | requestRead | wakeRead => cases hstart

def locks (a : Operation) : Bool :=
  match a with
  | .passWrite | .failWrite | .commitWrite _ _ | .endWrite => true
  | .passRead | .failRead | .commitRead _ _ | .endRead => true
  | _ => false

theorem locks_of_start {r : World c × Event} (hstart : w.start a = none) (hstep : w.step a = some r) :
    locks a = false := by
  cases a with
  | passWrite | passRead | failWrite | failRead =>
    obtain ⟨len, hready, -⟩ := Option.map_eq_some_iff.mp hstep
    simp [start, hready] at hstart
  | commitWrite | endWrite | commitRead | endRead =>
    obtain ⟨hfree, -⟩ := Option.ite_none_right_eq_some.mp hstep
    simp [start, hfree] at hstart
  | requestWrite | wakeWrite | store | requestRead | wakeRead => rfl

theorem start_of_locks (hlocks : locks a = false) : w.start a = none := by
  cases a <;> first | rfl | cases hlocks

theorem side_start (hstart : w.start a = some k) : k.side = a.side := by
  cases a with
  | passWrite | passRead | failWrite | failRead =>
    obtain ⟨len, -, rfl⟩ := Option.map_eq_some_iff.mp hstart
    rfl
  | commitWrite | endWrite | commitRead | endRead =>
    obtain ⟨-, ⟨rfl⟩⟩ := Option.ite_none_right_eq_some.mp hstart
    rfl
  | requestWrite | wakeWrite | store | requestRead | wakeRead => cases hstart

theorem side_stmt (hstmt : w.stmt k = (w', .inl k')) : k'.side = k.side := by
  cases k with
  | writeEos | writeLevel | commitWriteData | commitWriteLen | commitWriteMark
  | readLevel | readEos | commitReadData | commitReadLen | commitReadMark =>
    simp only [stmt] at hstmt
    split at hstmt <;> cases hstmt <;> rfl
  | _ => cases hstmt <;> rfl

/--
What a statement of the drain thread has to do with the source thread.
-/
theorem stmt_drain (hside : k.side = .drain) (hstmt : w.stmt k = (w', .inl k')) :
    ∃ notify, w'.source = w.source.notifyIf notify ∧ w'.fifo.rdReq = w.fifo.rdReq ∧
      ∀ q, stmt k { w with source := q } = ({ w' with source := q.notifyIf notify }, .inl k') := by
  cases k with
  | writeEos | writeLevel | commitWriteData | commitWriteLen | commitWriteMark =>
    simp only [stmt] at hstmt
    split at hstmt <;> cases hstmt
    all_goals exact ⟨false, rfl, rfl, fun q => by simp_all [stmt, Call.notifyIf]⟩
  | commitWriteNotify | endWriteNotify =>
    cases hstmt
    exact ⟨true, rfl, rfl, fun q => rfl⟩
  | writeRem | writeWrap | writeData | writeFull | commitWriteReq | commitWritePos | commitWriteWrap
  | commitWriteLevel | endWriteEos | endWriteReq =>
    cases hstmt
    exact ⟨false, rfl, rfl, fun q => rfl⟩
  | writeReq | writeWait | writeFailed | commitWriteReturn | endWriteReturn => cases hstmt
  | _ => cases hside

/--
What a statement of the source thread has to do with the drain thread.
-/
theorem stmt_source (hside : k.side = .source) (hstmt : w.stmt k = (w', .inl k')) :
    ∃ notify, w'.drain = w.drain.notifyIf notify ∧ w'.fifo.wrReq = w.fifo.wrReq ∧
      (∀ q, stmt k { w with drain := q } = ({ w' with drain := q.notifyIf notify }, .inl k')) ∧
      ∀ addr b, stmt k { w with fifo := w.fifo.store addr b } =
        ({ w' with fifo := w'.fifo.store addr b }, .inl k') := by
  cases k with
  | readLevel | readEos | commitReadData | commitReadLen | commitReadMark =>
    simp only [stmt] at hstmt
    split at hstmt <;> cases hstmt
    all_goals
      exact ⟨false, rfl, rfl, fun q => by simp_all [stmt, Call.notifyIf], fun addr b => by simp_all [stmt]⟩
  | commitReadNotify | endReadNotify =>
    cases hstmt
    exact ⟨true, rfl, rfl, fun q => rfl, fun addr b => rfl⟩
  | readWrap | readData | readEmpty | commitReadReq | commitReadPos | commitReadWrap | commitReadLevel
  | endReadEos | endReadReq =>
    cases hstmt
    exact ⟨false, rfl, rfl, fun q => rfl, fun addr b => rfl⟩
  | readReq | readWait | readFailed | commitReadReturn | endReadReturn => cases hstmt
  | _ => cases hside

theorem side_eq_drain {side : Side} (h : side ≠ .source) : side = .drain := by
  cases side <;> simp_all

theorem side_eq_source {side : Side} (h : side ≠ .drain) : side = .source := by
  cases side <;> simp_all

theorem asleep_of_notifyIf {call : Call} {notify : Bool} {len : Nat}
    (h : call.notifyIf notify = .asleep len) : call = .asleep len ∧ notify = false := by
  cases notify <;> cases call <;> simp_all [Call.notifyIf, Call.notifyAll]

theorem stmt_left {t t' : World c} {b : Operation} (hlocks : locks b = false) (hside : k.side ≠ b.side)
    (hstmt : w.stmt k = (t, .inl k')) (hstep : t.step b = some (t', e)) :
    ∃ w', w.step b = some (w', e) ∧ stmt k w' = (t', .inl k') := by
  cases b with
  | requestWrite len =>
    obtain ⟨notify, hdrain, hreq, hframe, -⟩ := stmt_source (side_eq_source hside) hstmt
    obtain ⟨hfree, hone⟩ := Option.ite_none_right_eq_some.mp hstep
    rw [hdrain, Call.free_notifyIf] at hfree
    simp only [step, hfree, if_true, requestWrite, StaticFIFO.requestWriteTest] at hone ⊢
    rw [hreq] at hone
    by_cases hzero : w.fifo.wrReq = 0
    . simp only [hzero, ne_eq, not_true_eq_false, if_false] at hone ⊢
      cases hone
      exact ⟨_, rfl, by rw [hframe]; cases notify <;> rfl⟩
    . simp only [hzero, ne_eq, not_false_eq_true, if_true] at hone ⊢
      cases hone
      exact ⟨w, rfl, hstmt⟩
  | wakeWrite =>
    obtain ⟨notify, hdrain, -, hframe, -⟩ := stmt_source (side_eq_source hside) hstmt
    simp only [step] at hstep ⊢
    split at hstep
    next len hasleep =>
      cases hstep
      rw [hdrain] at hasleep
      obtain ⟨hbefore, rfl⟩ := asleep_of_notifyIf hasleep
      rw [hbefore]
      exact ⟨_, rfl, hframe _⟩
    . cases hstep
  | store addr v =>
    obtain ⟨notify, hdrain, -, -, hframe⟩ := stmt_source (side_eq_source hside) hstmt
    obtain ⟨hfree, hone⟩ := Option.ite_none_right_eq_some.mp hstep
    rw [hdrain, Call.free_notifyIf] at hfree
    cases hone
    exact ⟨{ w with fifo := w.fifo.store addr v }, by simp [step, hfree], hframe addr v⟩
  | requestRead len =>
    obtain ⟨notify, hsource, hreq, hframe⟩ := stmt_drain (side_eq_drain hside) hstmt
    obtain ⟨hfree, hone⟩ := Option.ite_none_right_eq_some.mp hstep
    rw [hsource, Call.free_notifyIf] at hfree
    simp only [step, hfree, if_true, requestRead, StaticFIFO.requestReadTest] at hone ⊢
    rw [hreq] at hone
    by_cases hzero : w.fifo.rdReq = 0
    . simp only [hzero, ne_eq, not_true_eq_false, if_false] at hone ⊢
      cases hone
      exact ⟨_, rfl, by rw [hframe]; cases notify <;> rfl⟩
    . simp only [hzero, ne_eq, not_false_eq_true, if_true] at hone ⊢
      cases hone
      exact ⟨w, rfl, hstmt⟩
  | wakeRead =>
    obtain ⟨notify, hsource, -, hframe⟩ := stmt_drain (side_eq_drain hside) hstmt
    simp only [step] at hstep ⊢
    split at hstep
    next len hasleep =>
      cases hstep
      rw [hsource] at hasleep
      obtain ⟨hbefore, rfl⟩ := asleep_of_notifyIf hasleep
      rw [hbefore]
      exact ⟨_, rfl, hframe _⟩
    . cases hstep
  | passWrite | failWrite | commitWrite | endWrite => cases hlocks
  | passRead | failRead | commitRead | endRead => cases hlocks

theorem frame_of_free {b : Operation} (hlocks : locks b = false) (hstep : w.step b = some (w', e)) :
    match b.side with
    | .drain => w'.source = w.source
    | .source => w'.drain = w.drain := by
  cases b with
  | requestWrite | requestRead =>
    obtain ⟨-, hone⟩ := Option.ite_none_right_eq_some.mp hstep
    simp only [requestWrite, requestRead] at hone
    split at hone <;> cases hone <;> rfl
  | store =>
    obtain ⟨-, ⟨⟩⟩ := Option.ite_none_right_eq_some.mp hstep
    rfl
  | wakeWrite | wakeRead =>
    simp only [step] at hstep
    split at hstep <;> cases hstep
    rfl
  | passWrite | failWrite | commitWrite | endWrite => cases hlocks
  | passRead | failRead | commitRead | endRead => cases hlocks

theorem start_left {b : Operation} (hlocks : locks b = false) (hside : a.side ≠ b.side)
    (hstep : w.step b = some (w', e)) : w'.start a = w.start a := by
  have hframe := frame_of_free hlocks hstep
  cases hb : b.side with
  | drain =>
    rw [hb] at hframe hside
    cases a <;> simp_all [start, Operation.side]
  | source =>
    rw [hb] at hframe hside
    cases a <;> simp_all [start, Operation.side]

theorem atomic_sections (c : Layout) : (sections c).Atomic (machine c) where
  exec _ _ _ hstart := exec_of_start hstart
  threadOf_start _ _ _ hstart := side_start hstart
  threadOf_stmt _ _ _ _ hstmt := side_stmt hstmt
  start_left s s' a b e k hside hfree hstep hstart := by
    rw [← hstart]
    exact start_left (locks_of_start hfree hstep) hside hstep
  stmt_left k k' s t t' b e hside hstmt hfree hstep := by
    have hlocks := locks_of_start hfree hstep
    obtain ⟨s', hstep', hstmt'⟩ := stmt_left hlocks hside hstmt hstep
    exact ⟨s', start_of_locks hlocks, hstep', hstmt'⟩

theorem buffer_stmt (hstmt : w.stmt k = (w', .inl k')) : w'.fifo.buffer = w.fifo.buffer := by
  cases k with
  | writeEos | writeLevel | commitWriteData | commitWriteLen | commitWriteMark
  | readLevel | readEos | commitReadData | commitReadLen | commitReadMark =>
    simp only [stmt] at hstmt
    split at hstmt <;> cases hstmt <;> rfl
  | _ => cases hstmt <;> rfl

end Atomic

end World
