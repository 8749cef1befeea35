import Buffer2.Ipc.Mutex

/-!
This module contains the messages that threads print by `lerr`. Its macro creates an object of the class
`Lock` for `LogMtx` that lives until the end of the expression, so until all parts of the message are
printed.
-/

open IPC (Lock.World)

/--
Where a thread is: in none of the expressions with `lerr`, or in one that has printed some parts of its
message.
-/
inductive Printer
  | idle
  | printing (done rest : List String)
  deriving DecidableEq

namespace Printer

def done (p : Printer) : List String :=
  match p with
  | .idle => []
  | .printing done _ => done

def message (p : Printer) : List (List String) :=
  match p with
  | .idle => []
  | .printing done rest => [done ++ rest]

def own (p : Printer) : Option Bool :=
  match p with
  | .idle => none
  | .printing _ _ => some true

theorem own_eq_some {p : Printer} : p.own = some true ↔ p ≠ .idle := by
  cases p <;> simp [own]

end Printer

/--
Every thread has at most one of the objects at a time, so the threads stand for the objects as well.
-/
structure Lerr (ι : Type) where
  logMtx : Lock.World ι ι
  cerr : List String
  pos : ι → Printer

namespace Lerr

inductive Operation
  | print (message : List String)
  | part
  | finish
  deriving DecidableEq

inductive Event
  | locked
  | wrote
  | printed (message : List String)
  deriving DecidableEq

variable {ι : Type}

def init (ι : Type) : Lerr ι where
  logMtx := .init ι ι
  cerr := []
  pos _ := .idle

variable [DecidableEq ι]

def step (w : Lerr ι) (x : ι × Operation) : Option (Lerr ι × Event) :=
  match x.2, w.pos x.1 with
  | .print message, .idle =>
    -- nobody looks at the flag of the object
    (w.logMtx.step id (x.1, .construct (-1))).map fun r =>
      ({ w with
          logMtx := r.1
          pos := Function.update w.pos x.1 (.printing [] message) }, .locked)
  | .part, .printing done (part :: rest) =>
    some ({ w with
      cerr := w.cerr ++ [part]
      pos := Function.update w.pos x.1 (.printing (done ++ [part]) rest) }, .wrote)
  | .finish, .printing done [] =>
    (w.logMtx.step id (x.1, .destroy)).map fun r =>
      ({ w with
          logMtx := r.1
          pos := Function.update w.pos x.1 .idle }, .printed done)
  | _, _ => none

def machine (ι : Type) [DecidableEq ι] : Machine (Lerr ι) (ι × Operation) Event where
  step := step

abbrev Trace (ι : Type) := List ((ι × Operation) × Event)

def started (tr : Trace ι) : List (ι × List String) :=
  tr.filterMap fun x =>
    match x.1.2 with
    | .print message => some (x.1.1, message)
    | _ => none

def printed (tr : Trace ι) : List (ι × List String) :=
  tr.filterMap fun x =>
    match x.2 with
    | .printed message => some (x.1.1, message)
    | _ => none

def ofThread (t : ι) (messages : List (ι × List String)) : List (List String) :=
  (messages.filter fun m => m.1 = t).map Prod.snd

section Step

variable {w w' : Lerr ι} {t : ι} {x : ι × Operation} {e : Event}

structure Inv (w : Lerr ι) : Prop where
  locks : ∃ guards, Lock.World.Inv id w.logMtx guards
  own_eq (t : ι) : w.logMtx.own t = (w.pos t).own

omit [DecidableEq ι] in
theorem inv_init : (init ι).Inv where
  locks := ⟨∅, IPC.Lock.World.inv_init⟩
  own_eq _ := rfl

theorem Inv.alone {u : ι} (h : w.Inv) (ht : w.pos t ≠ .idle) (hu : w.pos u ≠ .idle) : t = u := by
  obtain ⟨guards, hlocks⟩ := h.locks
  apply hlocks.safe.exclusive t u
  . rw [h.own_eq, Printer.own_eq_some]
    exact ht
  . rw [h.own_eq, Printer.own_eq_some]
    exact hu

inductive Step (w : Lerr ι) : ι × Operation → Event → Lerr ι → Prop
  | print (t : ι) (message : List String) (logMtx : Lock.World ι ι) (hidle : ∀ u, w.pos u = .idle)
      (hown : logMtx.own = Function.update w.logMtx.own t (some true))
      (hlocks : ∃ guards, Lock.World.Inv id logMtx guards) :
    Step w (t, .print message) .locked
      { w with
        logMtx
        pos := Function.update w.pos t (.printing [] message) }
  | part (t : ι) (done rest : List String) (part : String) (hpos : w.pos t = .printing done (part :: rest)) :
    Step w (t, .part) .wrote
      { w with
        cerr := w.cerr ++ [part]
        pos := Function.update w.pos t (.printing (done ++ [part]) rest) }
  | finish (t : ι) (done : List String) (logMtx : Lock.World ι ι) (hpos : w.pos t = .printing done [])
      (hown : logMtx.own = Function.update w.logMtx.own t none)
      (hlocks : ∃ guards, Lock.World.Inv id logMtx guards) :
    Step w (t, .finish) (.printed done)
      { w with
        logMtx
        pos := Function.update w.pos t .idle }

omit [DecidableEq ι] in
theorem Inv.not_owner (h : w.Inv) (hidle : w.pos t = .idle) : w.logMtx.mutex.owner ≠ some t := by
  intro howner
  obtain ⟨guards, hlocks⟩ := h.locks
  obtain ⟨k, hk, rfl⟩ := hlocks.held.exists_guard howner
  have hown := (hlocks.mem_iff k).mp hk
  rw [h.own_eq, Printer.own_eq_some] at hown
  exact hown hidle

theorem Inv.idle_of_locked {r : Lock.World ι ι × Bool} (h : w.Inv) (hidle : w.pos t = .idle)
    (hrequest : w.logMtx.request id t (-1) = some r) : r.2 = true ∧ ∀ u, w.pos u = .idle := by
  obtain ⟨guards, hlocks⟩ := h.locks
  unfold IPC.Lock.World.request at hrequest
  obtain ⟨⟨m, answer⟩, hlock, rfl⟩ := Option.map_eq_some_iff.mp hrequest
  have hnone : w.logMtx.mutex.owner = none := by
    by_contra howner
    obtain ⟨u, howner⟩ := Option.ne_none_iff_exists'.mp howner
    have hne : u ≠ t := by
      rintro rfl
      exact h.not_owner hidle howner
    have hwait : w.logMtx.mutex.request t (-1) = none := IPC.Mutex.request_eq_none.mpr ⟨rfl, u, howner, hne⟩
    rw [show w.logMtx.mutex.request t (-1) = some (m, answer) from hlock] at hwait
    cases hwait
  constructor
  . cases IPC.Mutex.request_cases hlocks.count_eq_zero hlock with
    | locked => rfl
    | refused hwhy => simp [hnone] at hwhy
  . intro u
    by_contra hbusy
    have hown : w.logMtx.own u = some true := by rw [h.own_eq, Printer.own_eq_some.mpr hbusy]
    have howner := hlocks.held.owner_of_mem u ((hlocks.mem_iff u).mpr hown)
    rw [hnone] at howner
    cases howner

theorem step_cases (h : w.Inv) (hstep : w.step x = some (w', e)) : Step w x e w' := by
  obtain ⟨t, op⟩ := x
  obtain ⟨guards, hlocks⟩ := h.locks
  unfold step at hstep
  split at hstep
  next message hop hidle =>
    dsimp only at hop hidle
    subst hop
    obtain ⟨⟨logMtx, b⟩, hlock, heq⟩ := Option.map_eq_some_iff.mp hstep
    cases heq
    have hinv := (IPC.Lock.World.inv_step hlocks hlock).1
    have hnone : w.logMtx.own t = none := by rw [h.own_eq, hidle, Printer.own]
    simp only [IPC.Lock.World.step, hnone] at hlock
    obtain ⟨hlocked, hall⟩ := h.idle_of_locked hidle hlock
    obtain ⟨r, _, hset⟩ := Option.map_eq_some_iff.mp hlock
    refine .print t message logMtx hall ?_ hinv
    cases hset
    rw [show r.2 = true from hlocked]
  next done part rest hop hpos =>
    dsimp only at hop hpos
    subst hop
    cases hstep
    exact .part t done rest part hpos
  next done hop hpos =>
    dsimp only at hop hpos
    subst hop
    obtain ⟨⟨logMtx, b⟩, hlock, heq⟩ := Option.map_eq_some_iff.mp hstep
    cases heq
    have hinv := (IPC.Lock.World.inv_step hlocks hlock).1
    have hown : w.logMtx.own t = some true := by rw [h.own_eq, hpos, Printer.own]
    simp only [IPC.Lock.World.step, hown] at hlock
    cases hlock
    exact .finish t done _ hpos rfl hinv
  . cases hstep

theorem Inv.update (h : w.Inv) {logMtx : Lock.World ι ι} {cerr : List String} {p : Printer}
    (hlocks : ∃ guards, Lock.World.Inv id logMtx guards)
    (hown : logMtx.own = Function.update w.logMtx.own t p.own) :
    Inv { logMtx, cerr, pos := Function.update w.pos t p } where
  locks := hlocks
  own_eq u := by
    simp only [hown]
    by_cases hu : u = t
    . subst hu
      rw [Function.update_self, Function.update_self]
    . rw [Function.update_of_ne hu, Function.update_of_ne hu, h.own_eq]

theorem Inv.of_step (h : w.Inv) (hstep : Step w x e w') : w'.Inv := by
  cases hstep with
  | print t message logMtx hidle hown hlocks => exact h.update hlocks hown
  | part t done rest part hpos =>
    apply h.update h.locks
    rw [Function.eq_update_iff]
    exact ⟨by rw [h.own_eq, hpos, Printer.own, Printer.own], fun _ _ => rfl⟩
  | finish t done logMtx hpos hown hlocks => exact h.update hlocks hown

omit [DecidableEq ι] in
theorem printed_append (tr : Trace ι) (x : (ι × Operation) × Event) :
    printed (tr ++ [x]) = printed tr ++ printed [x] := List.filterMap_append

omit [DecidableEq ι] in
theorem started_append (tr : Trace ι) (x : (ι × Operation) × Event) :
    started (tr ++ [x]) = started tr ++ started [x] := List.filterMap_append

theorem ofThread_append (t : ι) (ms ms' : List (ι × List String)) :
    ofThread t (ms ++ ms') = ofThread t ms ++ ofThread t ms' := by
  simp [ofThread]

/--
What has been printed by then: whole messages, and what is there of the one that is being printed.
-/
structure Whole (tr : Trace ι) (w : Lerr ι) (current : List String) : Prop where
  inv : w.Inv
  cerr_eq : w.cerr = ((printed tr).map Prod.snd).flatten ++ current
  done_eq (t : ι) : w.pos t ≠ .idle → (w.pos t).done = current
  nil_of_idle : (∀ t, w.pos t = .idle) → current = []
  messages (t : ι) : ofThread t (started tr) = ofThread t (printed tr) ++ (w.pos t).message

theorem Whole.eq_of_printing {tr : Trace ι} {current done rest : List String} {t : ι} (h : Whole tr w current)
    (hpos : w.pos t = .printing done rest) : done = current := by
  have hdone := h.done_eq t (by simp [hpos])
  simpa [hpos, Printer.done] using hdone

theorem Whole.messages_snoc {tr : Trace ι} {current : List String} (h : Whole tr w current) {t : ι}
    (hone : (w.pos t).message ++ ofThread t (started [(x, e)]) =
      ofThread t (printed [(x, e)]) ++ (w'.pos t).message) :
    ofThread t (started (tr ++ [(x, e)])) = ofThread t (printed (tr ++ [(x, e)])) ++ (w'.pos t).message := by
  rw [started_append, printed_append, ofThread_append, ofThread_append, h.messages t, List.append_assoc,
    List.append_assoc, hone]

theorem Whole.of_step {tr : Trace ι} {current : List String} (h : Whole tr w current)
    (hstep : Step w x e w') : ∃ current', Whole (tr ++ [(x, e)]) w' current' := by
  have hinv := h.inv.of_step hstep
  cases hstep with
  | print t message logMtx hidle hown hlocks =>
    refine ⟨[], hinv, ?_, ?_, fun _ => rfl, ?_⟩
    . rw [printed_append, h.cerr_eq, h.nil_of_idle hidle]
      simp [printed]
    . intro u hu
      by_cases hut : u = t
      . subst hut
        simp [Printer.done]
      . simp [hut, hidle] at hu
    . intro u
      apply h.messages_snoc
      rw [hidle u]
      by_cases hut : u = t
      . subst hut
        simp [started, printed, ofThread, Printer.message]
      . simp [started, printed, ofThread, Printer.message, hut, Ne.symm hut, hidle u]
  | part t done rest part hpos =>
    obtain rfl := h.eq_of_printing hpos
    refine ⟨done ++ [part], hinv, ?_, ?_, ?_, ?_⟩
    . rw [printed_append, h.cerr_eq]
      simp [printed]
    . intro u hu
      by_cases hut : u = t
      . subst hut
        simp [Printer.done]
      . simp only [Function.update_of_ne hut] at hu
        exact absurd (h.inv.alone hu (by simp [hpos])) hut
    . intro hidle
      have := hidle t
      simp at this
    . intro u
      apply h.messages_snoc
      by_cases hut : u = t
      . subst hut
        simp [started, printed, ofThread, Printer.message, hpos]
      . simp [started, printed, ofThread, hut]
  | finish t done logMtx hpos hown hlocks =>
    obtain rfl := h.eq_of_printing hpos
    refine ⟨[], hinv, ?_, ?_, fun _ => rfl, ?_⟩
    . rw [printed_append, h.cerr_eq]
      simp [printed]
    . intro u hu
      by_cases hut : u = t
      . subst hut
        simp at hu
      . simp only [Function.update_of_ne hut] at hu
        exact absurd (h.inv.alone hu (by simp [hpos])) hut
    . intro u
      apply h.messages_snoc
      by_cases hut : u = t
      . subst hut
        simp [started, printed, ofThread, Printer.message, hpos]
      . simp [started, printed, ofThread, hut, Ne.symm hut]

theorem messages_whole {tr : Trace ι} (hruns : (machine ι).Runs Machine.always (init ι) tr w) :
    (∃ current, w.cerr = ((printed tr).map Prod.snd).flatten ++ current ∧
      (current = [] ∨ ∃ t rest, w.pos t = .printing current rest)) ∧
    ∀ t, ofThread t (started tr) = ofThread t (printed tr) ++ (w.pos t).message := by
  obtain ⟨current, hwhole⟩ : ∃ current, Whole tr w current := by
    apply hruns.history (I := fun tr w => ∃ current, Whole tr w current)
    . rintro tr w x w' e ⟨current, h⟩ _ hstep
      exact h.of_step (step_cases h.inv hstep)
    . exact ⟨[], inv_init, rfl, fun _ h => absurd rfl h, fun _ => rfl, fun _ => rfl⟩
  refine ⟨⟨current, hwhole.cerr_eq, ?_⟩, hwhole.messages⟩
  by_cases hidle : ∀ t, w.pos t = .idle
  . exact .inl (hwhole.nil_of_idle hidle)
  . obtain ⟨t, ht⟩ := not_forall.mp hidle
    have hdone := hwhole.done_eq t ht
    cases hpos : w.pos t with
    | idle => exact absurd hpos ht
    | printing done rest =>
      right
      rw [hpos] at hdone
      rw [← hdone]
      exact ⟨t, rest, hpos⟩

theorem messages_whole_two :
    ∃ tr w, (machine Bool).Runs Machine.always (init Bool) tr w ∧ w.pos false = .idle ∧
      w.cerr = ["Input: ", "1 kiB"] ++ ["Output: "] ∧
      ofThread false (started tr) = ofThread false (printed tr) ++ (w.pos false).message := by
  have hruns : (machine Bool).Runs Machine.always (init Bool)
      [((false, .print ["Input: ", "1 kiB"]), .locked), ((false, .part), .wrote),
        ((false, .part), .wrote), ((false, .finish), .printed ["Input: ", "1 kiB"]),
        ((true, .print ["Output: ", "1 kiB"]), .locked), ((true, .part), .wrote)] _ :=
    .of_exec (fun _ _ _ => trivial) rfl
  exact ⟨_, _, hruns, rfl, rfl, (messages_whole hruns).2 false⟩

end Step

end Lerr
