import Mathlib.Algebra.Group.Nat.Defs
import Mathlib.Data.BitVec
import LklPort.Machine.Basic

/-!
# The timer wheel

Pending timers are kept in five vectors of lists. The first one has a list for each of the next 256
ticks; a list of a later one covers a range of ticks and is distributed over the vectors before it
(`cascade`) when the time comes to that range. `__run_timers` processes the ticks up to `jiffies`
one after another and calls the functions of the timers that are due.

The machine of this file takes one step for each section of the code that holds the lock of the
base. The lock is free outside of `__run_timers` and while a timer function is called, and there
timers may be added, modified and deleted.
-/

namespace LklPort.TimerWheel

open Function

/-- An `unsigned long` that counts ticks. -/
abbrev Jiffies := BitVec 64

def timeAfter (a b : Jiffies) : Bool := (b - a).toInt < 0

def timeBefore (a b : Jiffies) : Bool := timeAfter b a

def timeAfterEq (a b : Jiffies) : Bool := 0 ≤ (a - b).toInt

def timeBeforeEq (a b : Jiffies) : Bool := timeAfterEq b a

/-! ### The base -/

/-- The vectors `tv1` to `tv5`. -/
abbrev Level := Fin 5

scoped instance neZero_level : NeZero 5 := ⟨by decide⟩

/-- A list of `tv1` covers one tick, and one of a later vector covers all of the vector before. -/
def shift : Level → ℕ
  | 0 => 0
  | 1 => 8
  | 2 => 14
  | 3 => 20
  | 4 => 26

/-- `TVR_SIZE` for `tv1`, `TVN_SIZE` for the others. -/
def size : Level → ℕ
  | 0 => 256
  | _ => 64

/-- The lists that a timer can be on. -/
inductive Place where
  | vec (l : Level) (i : ℕ)
  /-- `work_list` of `__run_timers`. -/
  | work
  deriving DecidableEq

/-- Where `__run_timers` is. -/
inductive Phase (T : Type) where
  /-- It is not running. -/
  | idle
  /-- At the outer `while`. -/
  | loop
  /-- At the inner `while`. -/
  | work
  /-- The function of the timer is called, and the lock is free. -/
  | callback (t : T)
  deriving DecidableEq

/-- The lock of the base is free. -/
def Phase.unlocked {T : Type} : Phase T → Bool
  | .idle | .callback _ => true
  | .loop | .work => false

/-- A timer function is called. -/
def Phase.inCallback {T : Type} : Phase T → Bool
  | .callback _ => true
  | .idle | .loop | .work => false

/-- A `struct tvec_base` with the timers of type `T` that use it. -/
structure Base (T : Type) where
  timerJiffies : Jiffies
  nextTimer : Jiffies
  list : Place → List T
  /-- The list that `timer->entry` is linked into. The timer is pending if there is one. -/
  entry : T → Option Place
  /-- `timer->expires`. -/
  expires : T → Jiffies
  /-- The variable `jiffies`. -/
  jiffies : Jiffies
  phase : Phase T

variable {T : Type} [DecidableEq T]

def timerPending (b : Base T) (t : T) : Bool := (b.entry t).isSome

/-- The list that `internal_add_timer` chooses. -/
def slotOf (timerJiffies expires : Jiffies) : Level × ℕ :=
  let idx := (expires - timerJiffies).toNat
  if idx < 2 ^ 8 then (0, expires.toNat % 2 ^ 8)
  else if idx < 2 ^ 14 then (1, expires.toNat / 2 ^ 8 % 2 ^ 6)
  else if idx < 2 ^ 20 then (2, expires.toNat / 2 ^ 14 % 2 ^ 6)
  else if idx < 2 ^ 26 then (3, expires.toNat / 2 ^ 20 % 2 ^ 6)
  else if (expires - timerJiffies).toInt < 0 then (0, timerJiffies.toNat % 2 ^ 8)
  else
    let expires := if 0xffffffff < idx then 0xffffffff + timerJiffies else expires
    (4, expires.toNat / 2 ^ 26 % 2 ^ 6)

def internalAddTimer (b : Base T) (t : T) : Base T :=
  let slot := slotOf b.timerJiffies (b.expires t)
  let p := Place.vec slot.1 slot.2
  { b with
    list := update b.list p (b.list p ++ [t])
    entry := update b.entry t (some p) }

def detachTimer (b : Base T) (t : T) (clearPending : Bool) : Base T :=
  { b with
    list := fun p => if b.entry t = some p then (b.list p).erase t else b.list p
    entry := if clearPending then update b.entry t none else b.entry }

/-! ### Adding, modifying and deleting timers -/

section

variable (deferrable : T → Bool)

/-- `base->next_timer` is computed anew, if it stands for the timer. -/
def forgetNextTimer (b : Base T) (t : T) : Base T :=
  if b.expires t = b.nextTimer ∧ deferrable t = false then { b with nextTimer := b.timerJiffies }
  else b

/-- The last part of `__mod_timer`. -/
def armTimer (b : Base T) (t : T) (expires : Jiffies) : Base T :=
  internalAddTimer
    { b with
      expires := update b.expires t expires
      nextTimer := if timeBefore expires b.nextTimer ∧ deferrable t = false then expires
        else b.nextTimer } t

/-- `__mod_timer`. -/
def modTimerCore (b : Base T) (t : T) (expires : Jiffies) (pendingOnly : Bool) : ℕ × Base T :=
  if timerPending b t then
    (1, armTimer deferrable (forgetNextTimer deferrable (detachTimer b t false) t) t expires)
  else if pendingOnly then (0, b)
  else (0, armTimer deferrable b t expires)

def modTimerPending (b : Base T) (t : T) (expires : Jiffies) : ℕ × Base T :=
  modTimerCore deferrable b t expires true

/-- `apply_slack`, for the field `slack` of the timer. The shift of an `int` by 31 and more is
undefined, so that `junk` may be anything. -/
def applySlack (slack : ℤ) (junk now expires : Jiffies) : Jiffies :=
  let limit :=
    if 0 ≤ slack then expires + BitVec.ofInt 64 slack
    else if timeAfter expires now then expires + (expires - now) / 256
    else expires
  let mask := expires ^^^ limit
  if mask = 0 then expires
  else
    let bit := mask.toNat.log2
    let mask := if bit < 31 then BitVec.ofNat 64 (2 ^ bit - 1) else junk
    limit &&& ~~~ mask

def modTimer (b : Base T) (t : T) (expires : Jiffies) (slack : ℤ) (junk : Jiffies) : ℕ × Base T :=
  if timerPending b t ∧ b.expires t = expires then (1, b)
  else modTimerCore deferrable b t (applySlack slack junk b.jiffies expires) false

def delTimer (b : Base T) (t : T) : ℕ × Base T :=
  if timerPending b t then (1, forgetNextTimer deferrable (detachTimer b t true) t) else (0, b)

end

/-! ### Running timers -/

/-- `INDEX(N)`, for the vector that it is used with. -/
def index (timerJiffies : Jiffies) (l : Level) : ℕ := timerJiffies.toNat / 2 ^ shift l % size l

/-- `cascade`, which returns its index. -/
def cascade (b : Base T) (l : Level) (i : ℕ) : Base T :=
  (b.list (.vec l i)).foldl internalAddTimer
    { b with list := update b.list (.vec l i) [] }

/-- The cascades of `__run_timers`, each one if the index before it was 0. -/
def cascades (b : Base T) : List Level → Base T
  | [] => b
  | l :: ls =>
    let i := index b.timerJiffies l
    let b := cascade b l i
    if i = 0 then cascades b ls else b

/-- The step to the next tick, with `list_replace_init` of the list `i` of `tv1`. -/
def takeList (b : Base T) (i : ℕ) : Base T :=
  { b with
    timerJiffies := b.timerJiffies + 1
    list := update (update b.list .work (b.list (.vec 0 i))) (.vec 0 i) []
    entry := fun t => if b.entry t = some (.vec 0 i) then some .work else b.entry t
    phase := .work }

/-- The body of the outer loop of `__run_timers`, before the functions are called. -/
def startTick (b : Base T) : Base T :=
  let i := b.timerJiffies.toNat % 2 ^ 8
  takeList (if i = 0 then cascades b [1, 2, 3, 4] else b) i

/-- `__run_timers` goes on. -/
def runStep (b : Base T) : Base T :=
  match b.phase with
  | .loop =>
    if timeAfterEq b.jiffies b.timerJiffies then startTick b else { b with phase := .idle }
  | .work =>
    match b.list .work with
    | [] => { b with phase := .loop }
    | t :: _ => { detachTimer b t true with phase := .callback t }
  | _ => b

/-! ### The next timer event -/

def nextTimerMaxDelta : Jiffies := 2 ^ 30 - 1

section

variable (deferrable : T → Bool)

/-- The search in `tv1`, from the slot at distance `j` on, with `rounds` slots to go: the first
timer and its slot. -/
def searchRoot (b : Base T) (start : ℕ) : ℕ → ℕ → Option (Jiffies × ℕ)
  | _, 0 => none
  | j, rounds + 1 =>
    let slot := (start + j) % 2 ^ 8
    match (b.list (.vec 0 slot)).find? fun t => !deferrable t with
    | some t => some (b.expires t, slot)
    | none => searchRoot b start (j + 1) rounds

/-- The variable `expires` after the timers of a list were looked at, and whether there were any. -/
def searchList (b : Base T) (ts : List T) (expires : Jiffies) : Jiffies × Bool :=
  (ts.filter fun t => !deferrable t).foldl
    (fun r t => (if timeBefore (b.expires t) r.1 then b.expires t else r.1, true)) (expires, false)

/-- The search in one of `tv2` to `tv5`: the variables `expires` and `found`, and the slot where
it stopped, if it did. -/
def searchVec (b : Base T) (l : Level) (start : ℕ) (found : Bool) (expires : Jiffies) :
    ℕ → ℕ → Jiffies × Option ℕ
  | _, 0 => (expires, none)
  | j, rounds + 1 =>
    let slot := (start + j) % 2 ^ 6
    let r := searchList deferrable b (b.list (.vec l slot)) expires
    if found || r.2 then (r.1, some slot)
    else searchVec b l start found expires (j + 1) rounds

/-- The number of the next list of a vector that is cascaded: `timer_jiffies` after it was rounded
up and shifted. -/
def nextCascade (timerJiffies : Jiffies) (bits : ℕ) : Jiffies :=
  let i := timerJiffies.toNat % 2 ^ bits
  (if i ≠ 0 then timerJiffies + BitVec.ofNat 64 (2 ^ bits - i) else timerJiffies) >>> bits

/-- The loop over `tv2` to `tv5`. -/
def searchVecs (b : Base T) : List Level → Jiffies → Bool → Jiffies → Jiffies
  | [], _, _, expires => expires
  | l :: ls, timerJiffies, found, expires =>
    let i := timerJiffies.toNat % 2 ^ 6
    match searchVec deferrable b l i found expires 0 (2 ^ 6) with
    | (expires, some slot) =>
      if i = 0 ∨ slot < i then searchVecs b ls (nextCascade timerJiffies 6) true expires
      else expires
    | (expires, none) => searchVecs b ls (nextCascade timerJiffies 6) found expires

def nextTimerInterrupt (b : Base T) : Jiffies :=
  let i := b.timerJiffies.toNat % 2 ^ 8
  match searchRoot deferrable b i 0 (2 ^ 8) with
  | some (expires, slot) =>
    if i = 0 ∨ slot < i then
      searchVecs deferrable b [1, 2, 3, 4] (nextCascade b.timerJiffies 8) true expires
    else expires
  | none =>
    searchVecs deferrable b [1, 2, 3, 4] (nextCascade b.timerJiffies 8) false
      (b.timerJiffies + nextTimerMaxDelta)

/-- `get_next_timer_interrupt`, as far as the base is concerned. -/
def getNextTimerInterrupt (b : Base T) : Base T :=
  if timeBeforeEq b.nextTimer b.timerJiffies then
    { b with nextTimer := nextTimerInterrupt deferrable b }
  else b

end

/-! ### Runs -/

/-- What can happen to the base. -/
inductive Action (T : Type) where
  /-- Time goes on. -/
  | advance (ticks : ℕ)
  | addTimer (t : T) (expires : Jiffies) (slack : ℤ) (junk : Jiffies)
  | modTimer (t : T) (expires : Jiffies) (slack : ℤ) (junk : Jiffies)
  | modTimerPending (t : T) (expires : Jiffies)
  | delTimer (t : T)
  /-- `__run_timers` is called. -/
  | runTimers
  /-- `__run_timers` goes on. -/
  | step
  /-- A timer function returns. -/
  | ret
  | getNextTimerInterrupt

/-- When an action can happen. `add_timer` is a `BUG` for a pending timer. -/
def Action.guard (b : Base T) : Action T → Prop
  | .advance _ => True
  | .addTimer t _ _ _ => b.phase.unlocked ∧ b.entry t = none
  | .modTimer _ _ _ _ | .modTimerPending _ _ | .delTimer _ => b.phase.unlocked
  | .runTimers | .getNextTimerInterrupt => b.phase = .idle
  | .step => b.phase.unlocked = false
  | .ret => b.phase.inCallback

instance (b : Base T) (a : Action T) : Decidable (a.guard b) := by
  cases a <;> unfold Action.guard <;> infer_instance

def Action.next (deferrable : T → Bool) (b : Base T) : Action T → Base T
  | .advance ticks => { b with jiffies := b.jiffies + BitVec.ofNat 64 ticks }
  | .addTimer t expires slack junk => (TimerWheel.modTimer deferrable b t expires slack junk).2
  | .modTimer t expires slack junk => (TimerWheel.modTimer deferrable b t expires slack junk).2
  | .modTimerPending t expires => (TimerWheel.modTimerPending deferrable b t expires).2
  | .delTimer t => (TimerWheel.delTimer deferrable b t).2
  | .runTimers => { b with phase := .loop }
  | .step => runStep b
  | .ret => { b with phase := .work }
  | .getNextTimerInterrupt => TimerWheel.getNextTimerInterrupt deferrable b

/-- The base after `init_timers_cpu`, at the time `jiffies`. -/
def initBase (T : Type) (jiffies : Jiffies) : Base T where
  timerJiffies := jiffies
  nextTimer := jiffies
  list _ := []
  entry _ := none
  expires _ := 0
  jiffies := jiffies
  phase := .idle

/-- The base and the callers of its functions. -/
def timerMachine (deferrable : T → Bool) (jiffies : Jiffies) : Machine (Base T) (Action T) where
  init := initBase T jiffies
  guard := Action.guard
  next := Action.next deferrable

end LklPort.TimerWheel
