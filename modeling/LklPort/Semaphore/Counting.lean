import LklPort.Semaphore.Basic

/-!
# The POSIX semaphore counts

The count is the initial one plus the ups minus the downs, as long as no up increments `INT_MAX`.
No wake-up is lost: while threads are blocked, the count is at most the number of the threads that
were woken and have not taken it yet, or are about to signal. A thread that enters `sem_down` may
take the count before a woken one, but then the count is smaller too.
-/

namespace LklPort.Semaphore

open List

open Interleaving (State Roster)

/-- The state of the threads and the semaphore. -/
abbrev SemState (T : Type) := State (Sem T) T Pc

/-- The thread was unblocked and has not taken the count yet, or is about to signal. -/
def Going {T : Type} (m : Sem T) (t : T) : Pc → Prop
  | .upTest | .upSignal | .downTest true | .downDec true => True
  | .waiting => t ∉ m.cond
  | _ => False

variable {T : Type}

/-- A counting semaphore. Between two calls all ups and downs have returned. -/
structure CountLaw (c : ℤ) (m : Sem T) : Prop where
  nonneg : 0 ≤ m.count
  count : m.count = c + m.ups - m.downs
  returned : m.lock = none → m.count = c + m.upsDone - m.downsDone

/-- If there is something to take and a thread is blocked, then some thread will still run: one that
was unblocked before, or one that is about to signal. -/
def WakeupLaw (s : SemState T) : Prop :=
  0 < s.shared.count → (∃ t, s.pc t = .waiting ∧ t ∈ s.shared.cond) → ∃ t, Going s.shared t (s.pc t)

lemma going_congr {m m' : Sem T} {t : T} {p : Pc} (h : t ∈ m'.cond ↔ t ∈ m.cond) :
    Going m' t p ↔ Going m t p := by
  cases p with
  | waiting => exact not_congr h
  | downTest again | downDec again => cases again <;> rfl
  | idle | upLock | upInc | upTest | upSignal | upUnlock | downLock | downWait | downUnlock => rfl

/-! ### Assertions -/

namespace Pc

/-- The thread has locked the mutex. -/
def holds : Pc → Bool
  | .upInc | .upTest | .upSignal | .upUnlock | .downTest _ | .downWait | .downDec _
  | .downUnlock => true
  | .idle | .upLock | .downLock | .waiting => false

/-- The thread has incremented the count in this call. -/
def upped : Pc → ℕ
  | .upTest | .upSignal | .upUnlock => 1
  | _ => 0

/-- The thread has decremented the count in this call. -/
def downed : Pc → ℕ
  | .downUnlock => 1
  | _ => 0

end Pc

/-- What holds of the semaphore. -/
structure Global (c : ℤ) (m : Sem T) : Prop where
  range : -2 ^ 31 ≤ m.count ∧ m.count ≤ intMax
  count : m.count = c + m.ups - m.downs - 2 ^ 32 * m.overflows
  nonneg : m.overflows = 0 → 0 ≤ m.count
  unlocked : m.lock = none → m.ups = m.upsDone ∧ m.downs = m.downsDone

/-- What holds of a thread and the semaphore. -/
structure Local (m : Sem T) (t : T) (p : Pc) : Prop where
  lock : p.holds = true ↔ m.lock = some t
  cond : t ∈ m.cond → p = .waiting
  downWait : p = .downWait → m.count ≤ 0
  downDec : ∀ again, p = .downDec again → 0 < m.count
  returned : p.holds = true → m.ups = m.upsDone + p.upped ∧ m.downs = m.downsDone + p.downed

namespace Local

variable {m : Sem T} {t : T} {p : Pc}

section

variable (h : Local m t p)

include h

lemma locked (hp : p.holds = true) : m.lock = some t := h.lock.1 hp

lemma not_locked (hp : p.holds = false) : m.lock ≠ some t :=
  fun hlock => Bool.noConfusion (hp.symm.trans (h.lock.2 hlock))

lemma not_holds (hlock : m.lock ≠ some t) : p.holds = false :=
  Bool.eq_false_iff.2 fun hp => hlock (h.locked hp)

lemma not_blocked (hp : p ≠ .waiting) : t ∉ m.cond :=
  fun hcond => hp (h.cond hcond)

end

lemma holder (hlock : m.lock = some t) (hcond : t ∉ m.cond) (hp : p.holds = true)
    (hreturned : m.ups = m.upsDone + p.upped ∧ m.downs = m.downsDone + p.downed)
    (hwait : p = .downWait → m.count ≤ 0) (hdec : ∀ again, p = .downDec again → 0 < m.count) :
    Local m t p :=
  ⟨iff_of_true hp hlock, fun h => absurd h hcond, hwait, hdec, fun _ => hreturned⟩

lemma outside (hlock : m.lock ≠ some t) (hp : p.holds = false) (hcond : t ∈ m.cond → p = .waiting) :
    Local m t p := by
  refine ⟨iff_of_false (by simp [hp]) hlock, hcond, ?_, ?_, ?_⟩
  · rintro rfl
    cases hp
  · rintro again rfl
    cases hp
  · simp [hp]

end Local

variable {c : ℤ} {m m' : Sem T} {t : T} {p p' : Pc}

section

variable (h : Global c m)

include h

lemma Global.count_inc : m.inc.count = if m.count = intMax then -2 ^ 31 else m.count + 1 := by
  have hrange := h.range
  have hmax : intMax = 2 ^ 31 - 1 := rfl
  simp only [Sem.inc]
  split_ifs with hm
  · rw [hm]
    decide
  · exact Int.bmod_eq_of_le (by omega) (by omega)

lemma Global.count_dec (hpos : 0 < m.count) : m.dec.count = m.count - 1 := by
  have hrange := h.range
  have hmax : intMax = 2 ^ 31 - 1 := rfl
  exact Int.bmod_eq_of_le (by omega) (by omega)

lemma Global.inc (hlock : m.lock ≠ none) : Global c m.inc := by
  have hrange := h.range
  have hcount := h.count
  have hnonneg := h.nonneg
  have hmax : intMax = 2 ^ 31 - 1 := rfl
  have hinc := h.count_inc
  have hups : m.inc.ups = m.ups + 1 := rfl
  have hdowns : m.inc.downs = m.downs := rfl
  by_cases hm : m.count = intMax
  · rw [if_pos hm] at hinc
    have hover : m.inc.overflows = m.overflows + 1 := if_pos hm
    exact ⟨by omega, by omega, by omega, fun hfree => absurd hfree hlock⟩
  · rw [if_neg hm] at hinc
    have hover : m.inc.overflows = m.overflows := if_neg hm
    exact ⟨by omega, by omega, by omega, fun hfree => absurd hfree hlock⟩

lemma Global.dec (hlock : m.lock ≠ none) (hpos : 0 < m.count) : Global c m.dec := by
  have hrange := h.range
  have hcount := h.count
  have hdec := h.count_dec hpos
  have hups : m.dec.ups = m.ups := rfl
  have hdowns : m.dec.downs = m.downs + 1 := rfl
  have hover : m.dec.overflows = m.overflows := rfl
  exact ⟨by omega, by omega, by omega, fun hfree => absurd hfree hlock⟩

lemma Global.lock : Global c { m with lock := some t } :=
  ⟨h.range, h.count, h.nonneg, nofun⟩

lemma Global.unlock {ups downs : ℕ} (hups : m.ups = ups) (hdowns : m.downs = downs)
    (cond : List T) :
    Global c { m with lock := none, cond := cond, upsDone := ups, downsDone := downs } :=
  ⟨h.range, h.count, h.nonneg, fun _ => ⟨hups, hdowns⟩⟩

end

variable [DecidableEq T]

lemma Global.wake (h : Global c m) (ws : List T) : Global c (m.wake ws) :=
  ⟨h.range, h.count, h.nonneg, h.unlocked⟩

lemma Step.own (h : Step m t p m' p') (hG : Global c m) (hL : Local m t p) :
    Global c m' ∧ Local m' t p' := by
  cases h with
  | callUp | callDown =>
    exact ⟨hG, .outside (hL.not_locked rfl) rfl fun h => absurd (hL.cond h) nofun⟩
  | lockUp hfree | lockDown hfree =>
    exact ⟨hG.lock, .holder rfl (hL.not_blocked nofun) rfl (hG.unlocked hfree) nofun nofun⟩
  | relock hcond hfree => exact ⟨hG.lock, .holder rfl hcond rfl (hG.unlocked hfree) nofun nofun⟩
  | inc =>
    have hlock := hL.locked rfl
    obtain ⟨hups, hdowns⟩ := hL.returned rfl
    refine ⟨hG.inc (by simp [hlock]), ?_⟩
    exact .holder hlock (hL.not_blocked nofun) rfl ⟨congrArg (· + 1) hups, hdowns⟩ nofun nofun
  | test | skip =>
    exact ⟨hG, .holder (hL.locked rfl) (hL.not_blocked nofun) rfl (hL.returned rfl) nofun nofun⟩
  | signal ws =>
    refine ⟨hG.wake ws, ?_⟩
    exact .holder (hL.locked rfl) (fun ht => hL.not_blocked nofun (mem_of_mem_filter ht)) rfl
      (hL.returned rfl) nofun nofun
  | unlockUp =>
    obtain ⟨hups, hdowns⟩ := hL.returned rfl
    refine ⟨hG.unlock hups hdowns m.cond, .outside nofun rfl fun h => absurd (hL.cond h) nofun⟩
  | block _ hle =>
    exact ⟨hG, .holder (hL.locked rfl) (hL.not_blocked nofun) rfl (hL.returned rfl) (fun _ => hle)
      nofun⟩
  | pass _ hpos =>
    exact ⟨hG, .holder (hL.locked rfl) (hL.not_blocked nofun) rfl (hL.returned rfl) nofun
      fun _ _ => hpos⟩
  | wait =>
    obtain ⟨hups, hdowns⟩ := hL.returned rfl
    exact ⟨hG.unlock hups hdowns _, .outside nofun rfl fun _ => rfl⟩
  | spurious => exact ⟨hG.wake [t], .outside (hL.not_locked rfl) rfl fun _ => rfl⟩
  | dec again =>
    have hlock := hL.locked rfl
    obtain ⟨hups, hdowns⟩ := hL.returned rfl
    refine ⟨hG.dec (by simp [hlock]) (hL.downDec again rfl), ?_⟩
    exact .holder hlock (hL.not_blocked nofun) rfl ⟨hups, congrArg (· + 1) hdowns⟩ nofun nofun
  | unlockDown =>
    obtain ⟨hups, hdowns⟩ := hL.returned rfl
    exact ⟨hG.unlock hups hdowns m.cond, .outside nofun rfl fun h => absurd (hL.cond h) nofun⟩

lemma Step.other (h : Step m t p m' p') (hL : Local m t p) {x : T} {q : Pc} (hx : x ≠ t)
    (hL' : Local m x q) : Local m' x q := by
  have hne : some t ≠ some x := fun heq => hx (Option.some.inj heq).symm
  -- a step that writes the semaphore is made with the mutex, so the other thread is outside
  have hout (hlock : m.lock ≠ some x) (hlock' : m'.lock ≠ some x)
      (hcond : x ∈ m'.cond → x ∈ m.cond) : Local m' x q :=
    .outside hlock' (hL'.not_holds hlock) fun h => hL'.cond (hcond h)
  have hheld (hp : p.holds = true) : m.lock ≠ some x := hL.locked hp ▸ hne
  have hwake (ws : List T) : Local (m.wake ws) x q :=
    ⟨hL'.lock, fun h => hL'.cond (mem_of_mem_filter h), hL'.downWait, hL'.downDec, hL'.returned⟩
  cases h with
  | callUp | callDown | test | skip | block | pass => exact hL'
  | signal ws => exact hwake ws
  | spurious => exact hwake [t]
  | lockUp hfree | lockDown hfree | relock _ hfree => exact hout (hfree ▸ nofun) hne id
  | inc | dec => exact hout (hheld rfl) (hheld rfl) id
  | unlockUp | unlockDown => exact hout (hheld rfl) nofun id
  | wait => exact hout (hheld rfl) nofun fun h => (List.mem_cons.1 h).resolve_left hx

lemma outline (c : ℤ) : (program T).Outline (Global c) Local where
  own h hG hL := (step_of_exec h).own hG hL
  other h _ hL _ _ hx hL' := (step_of_exec h).other hL hx hL'

variable {s : SemState T}

lemma global_of_reachable (hc : 0 ≤ c) (hmax : c ≤ intMax) (h : (machine T c).Reachable s) :
    Global c s.shared ∧ ∀ t, Local s.shared t (s.pc t) := by
  refine (outline c).holds ?_ (fun t => .outside (by simp [Sem.alloc]) rfl (by simp [Sem.alloc])) h
  refine ⟨⟨by simp only [Sem.alloc]; omega, hmax⟩, ?_, fun _ => hc, fun _ => ⟨rfl, rfl⟩⟩
  simp [Sem.alloc]

/-! ### Wake-ups -/

/-- While threads are blocked, the count is at most the number of the threads that will run. -/
def Covered (s : SemState T) : Prop :=
  ∃ l, Roster Going s l ∧ (s.shared.cond ≠ [] → s.shared.count ≤ l.length)

namespace Covered

section

variable (h : Covered s) (hcond : ∀ x, x ≠ t → (x ∈ m.cond ↔ x ∈ s.shared.cond))

include h hcond

lemma keep (hown : Going m t p ↔ Going s.shared t (s.pc t))
    (hle : m.cond ≠ [] → m.count ≤ 0 ∨ s.shared.cond ≠ [] ∧ m.count ≤ s.shared.count) :
    Covered (s.set m t p) := by
  obtain ⟨l, hl, hcount⟩ := h
  refine ⟨l, hl.keep hown fun x hx => going_congr (hcond x hx), fun hne => ?_⟩
  rcases hle hne with hle | ⟨hold, hle⟩
  · exact Int.le_trans hle (Int.natCast_nonneg _)
  · exact Int.le_trans hle (hcount hold)

lemma join (hnot : ¬ Going s.shared t (s.pc t)) (hown : Going m t p)
    (hle : m.cond ≠ [] → s.shared.cond ≠ [] ∧ m.count ≤ s.shared.count + 1) :
    Covered (s.set m t p) := by
  obtain ⟨l, hl, hcount⟩ := h
  refine ⟨t :: l, hl.join hnot hown fun x hx => going_congr (hcond x hx), fun hne => ?_⟩
  obtain ⟨hold, hle⟩ := hle hne
  have := hcount hold
  simp only [Interleaving.State.shared_set, length_cons]
  omega

lemma leave (hyes : Going s.shared t (s.pc t)) (hown : ¬ Going m t p)
    (hle : m.cond ≠ [] → m.count ≤ 0 ∨ s.shared.cond ≠ [] ∧ m.count < s.shared.count) :
    Covered (s.set m t p) := by
  obtain ⟨l, hl, hcount⟩ := h
  refine ⟨l.erase t, hl.leave hown fun x hx => going_congr (hcond x hx), fun hne => ?_⟩
  have hlen := length_erase_add_one ((hl.2 t).2 hyes)
  simp only [Interleaving.State.shared_set]
  rcases hle hne with hle | ⟨hold, hle⟩
  · omega
  · have := hcount hold
    omega

end

lemma signal (h : Covered s) {ws : List T} (hws : s.shared.Signals ws) (hpc : s.pc t = .upSignal)
    (hwait : ∀ x, x ∈ s.shared.cond → s.pc x = .waiting) :
    Covered (s.set (s.shared.wake ws) t .upUnlock) := by
  obtain ⟨l, hl, hcount⟩ := h
  obtain ⟨hnodup, hsub, hsome⟩ := hws
  have hmem (x : T) : x ∈ (s.shared.wake ws).cond ↔ x ∈ s.shared.cond ∧ x ∉ ws := by
    simp [Sem.wake]
  refine ⟨ws ++ l.erase t, hl.replace id hnodup (fun w hw => ?_) fun x hx => ?_, fun hne => ?_⟩
  · have hw' := hwait w (hsub w hw)
    refine ⟨fun heq => ?_, ?_⟩
    · simp [heq, hpc] at hw'
    · rw [hw']
      exact fun hnot => hnot (hsub w hw)
  · by_cases hxw : x ∈ ws
    · rw [hwait x (hsub x hxw)]
      exact iff_of_true (fun hcond => ((hmem x).1 hcond).2 hxw) (.inl hxw)
    · rw [or_iff_right hxw]
      exact going_congr ((hmem x).trans (and_iff_left hxw))
  · have hold : s.shared.cond ≠ [] := by
      obtain ⟨x, hx⟩ := exists_mem_of_ne_nil _ hne
      exact ne_nil_of_mem ((hmem x).1 hx).1
    have hlen := length_erase_add_one ((hl.2 t).2 (by rw [hpc]; trivial))
    have hpos := List.length_pos_iff.2 (hsome hold)
    have := hcount hold
    simp only [Interleaving.State.shared_set, length_append]
    exact Int.le_trans this (by omega)

end Covered

lemma Covered.step (h : Covered s) (hG : Global c s.shared)
    (hL : ∀ x, Local s.shared x (s.pc x)) (hstep : Step s.shared t (s.pc t) m p) :
    Covered (s.set m t p) := by
  have hLt := hL t
  have hsame (x : T) (_ : x ≠ t) : x ∈ s.shared.cond ↔ x ∈ s.shared.cond := Iff.rfl
  have hle (hne : s.shared.cond ≠ []) : s.shared.count ≤ 0 ∨
      s.shared.cond ≠ [] ∧ s.shared.count ≤ s.shared.count := .inr ⟨hne, Int.le_refl _⟩
  generalize hp : s.pc t = q at hstep hLt
  cases hstep with
  | callUp | callDown | lockUp | lockDown | unlockUp | unlockDown | test =>
    exact h.keep hsame (by rw [hp]; rfl) hle
  | relock hcond => exact h.keep hsame (by rw [hp]; exact iff_of_true trivial hcond) hle
  | pass again => exact h.keep hsame (by rw [hp]; cases again <;> rfl) hle
  | inc =>
    refine h.join hsame (by rw [hp]; exact id) trivial fun hne => ⟨hne, ?_⟩
    have hmax : intMax = 2 ^ 31 - 1 := rfl
    rw [hG.count_inc]
    split_ifs <;> omega
  | skip hneg => exact h.leave hsame (by rw [hp]; trivial) id fun _ => .inl hneg
  | signal _ hws => exact h.signal hws hp fun x => (hL x).cond
  | block again hneg =>
    cases again with
    | false => exact h.keep hsame (by rw [hp]; rfl) fun _ => .inl hneg
    | true => exact h.leave hsame (by rw [hp]; trivial) id fun _ => .inl hneg
  | wait =>
    refine h.keep (fun x hx => ?_) ?_ fun _ => .inl (hLt.downWait rfl)
    · exact List.mem_cons.trans (or_iff_right hx)
    · rw [hp]
      exact iff_of_false (fun hnot => hnot mem_cons_self) id
  | spurious hcond =>
    have hmem (x : T) : x ∈ (s.shared.wake [t]).cond ↔ x ∈ s.shared.cond ∧ x ≠ t := by
      simp [Sem.wake]
    refine h.join (fun x hx => (hmem x).trans (and_iff_left hx)) ?_ (fun h => ((hmem t).1 h).2 rfl)
      fun _ => ⟨ne_nil_of_mem hcond, Int.le_add_one (Int.le_refl _)⟩
    rw [hp]
    exact fun hnot => hnot hcond
  | dec again =>
    have hpos := hLt.downDec again rfl
    have hdec := hG.count_dec hpos
    cases again with
    | false => exact h.keep hsame (by rw [hp]; rfl) fun hne => .inr ⟨hne, by omega⟩
    | true => exact h.leave hsame (by rw [hp]; trivial) id fun hne => .inr ⟨hne, by omega⟩

theorem covered_of_reachable (hc : 0 ≤ c) (hmax : c ≤ intMax) (h : (machine T c).Reachable s) :
    Covered s := by
  refine h.invariant_of (fun s => global_of_reachable hc hmax) ?_ fun s a hJ hI ha => ?_
  · refine ⟨[], ⟨nodup_nil, fun t => ?_⟩, absurd rfl⟩
    exact iff_of_false not_mem_nil id
  · obtain ⟨m, p, hexec, hnext⟩ := Interleaving.exists_exec ha
    exact hnext ▸ hI.step hJ.1 hJ.2 (step_of_exec hexec)

/-! ### The law -/

/-- The POSIX semaphore loses no wake-up, and counts exactly as long as no `sem_up` has incremented
`INT_MAX`. -/
theorem posix_semaphore_law (hc : 0 ≤ c) (hmax : c ≤ intMax) (h : (machine T c).Reachable s) :
    WakeupLaw s ∧ (CountLaw c s.shared ↔ s.shared.overflows = 0) := by
  obtain ⟨hG, hL⟩ := global_of_reachable hc hmax h
  obtain ⟨l, hl, hcount⟩ := covered_of_reachable hc hmax h
  have heq := hG.count
  refine ⟨?_, fun hlaw => ?_, fun hover => ?_⟩
  · rintro hpos ⟨t, -, ht⟩
    have hle := hcount (ne_nil_of_mem ht)
    obtain ⟨x, hx⟩ := exists_mem_of_length_pos (l := l) (by omega)
    exact ⟨x, (hl.2 x).1 hx⟩
  · have := hlaw.count
    omega
  · refine ⟨hG.nonneg hover, by omega, fun hfree => ?_⟩
    obtain ⟨hups, hdowns⟩ := hG.unlocked hfree
    omega

/-- Threads 0 and 2 are blocked, and thread 1 signals one of them. -/
def signalRun : List (Fin 3 × Act (Fin 3)) :=
  [(0, .down), (0, .run), (0, .run), (0, .run), (2, .down), (2, .run), (2, .run), (2, .run),
    (1, .up), (1, .run), (1, .run), (1, .run), (1, .signal [0]), (1, .run)]

lemma signalRun_reachable : (machine (Fin 3) 0).Reachable
    ((machine (Fin 3) 0).runFrom (machine (Fin 3) 0).init signalRun) :=
  Machine.reachable_of_admits signalRun (by decide)

theorem posix_semaphore_law_signalRun :
    0 < ((machine (Fin 3) 0).runFrom (machine (Fin 3) 0).init signalRun).shared.count ∧
    2 ∈ ((machine (Fin 3) 0).runFrom (machine (Fin 3) 0).init signalRun).shared.cond ∧
    WakeupLaw ((machine (Fin 3) 0).runFrom (machine (Fin 3) 0).init signalRun) ∧
    CountLaw 0 ((machine (Fin 3) 0).runFrom (machine (Fin 3) 0).init signalRun).shared := by
  obtain ⟨hwake, hcount⟩ := posix_semaphore_law (by decide) (by decide) signalRun_reachable
  exact ⟨by decide, by decide, hwake, hcount.2 (by decide)⟩

/-- One `sem_up` on a semaphore that was allocated with `INT_MAX`. -/
def overflowRun : List (Fin 1 × Act (Fin 1)) := [(0, .up), (0, .run), (0, .run)]

theorem not_countLaw_overflowRun : (machine (Fin 1) intMax).Reachable
      ((machine (Fin 1) intMax).runFrom (machine (Fin 1) intMax).init overflowRun) ∧
    ((machine (Fin 1) intMax).runFrom (machine (Fin 1) intMax).init overflowRun).shared.count =
      -2 ^ 31 ∧
    ¬ CountLaw intMax
      ((machine (Fin 1) intMax).runFrom (machine (Fin 1) intMax).init overflowRun).shared := by
  refine ⟨Machine.reachable_of_admits overflowRun (by decide), by decide, fun hlaw => ?_⟩
  exact absurd hlaw.nonneg (by decide)

/-! ### Progress -/

/-- A thread that is not blocked, and has not returned. -/
def Running (m : Sem T) (t : T) (p : Pc) : Prop := p ≠ .idle ∧ t ∉ m.cond

lemma exists_exec_of_holds (hp : p.holds = true) : ∃ a, (exec m t p a).isSome = true := by
  cases p with
  | idle | upLock | downLock | waiting => cases hp
  | upInc | upTest | upUnlock | downTest | downWait | downDec | downUnlock => exact ⟨.run, rfl⟩
  | upSignal =>
    refine ⟨.signal (m.cond.take 1), ?_⟩
    have hsignals : m.Signals (m.cond.take 1) := by
      cases hcond : m.cond with
      | nil | cons => simp [Sem.Signals, hcond]
    simp only [exec, if_pos hsignals, Option.isSome_some]

/-- There is no deadlock: while a thread is running, some running thread can make a step. -/
theorem exists_running_step (hc : 0 ≤ c) (hmax : c ≤ intMax) (h : (machine T c).Reachable s)
    (ht : Running s.shared t (s.pc t)) :
    ∃ x a, Running s.shared x (s.pc x) ∧ (machine T c).guard s (x, a) := by
  obtain ⟨-, hL⟩ := global_of_reachable hc hmax h
  cases hlock : s.shared.lock with
  | some x =>
    have hholds := (hL x).lock.2 hlock
    obtain ⟨a, ha⟩ := exists_exec_of_holds (t := x) hholds
    refine ⟨x, a, ⟨?_, (hL x).not_blocked ?_⟩, ha⟩
    · rintro hpc
      simp [hpc, Pc.holds] at hholds
    · rintro hpc
      simp [hpc, Pc.holds] at hholds
  | none =>
    have hout := (hL t).not_holds (by simp [hlock])
    refine ⟨t, .run, ht, ?_⟩
    show (exec s.shared t (s.pc t) .run).isSome = true
    cases hpc : s.pc t with
    | idle => exact absurd hpc ht.1
    | upLock | downLock => simp [exec, hlock]
    | waiting => simp [exec, hlock, ht.2]
    | upInc | upTest | upSignal | upUnlock | downTest | downWait | downDec | downUnlock =>
      simp [hpc, Pc.holds] at hout

theorem exists_running_step_signalRun : ∃ x a,
    (machine (Fin 3) 0).guard ((machine (Fin 3) 0).runFrom (machine (Fin 3) 0).init signalRun)
      (x, a) := by
  obtain ⟨x, a, -, hguard⟩ := exists_running_step (t := 0) (by decide) (by decide)
    signalRun_reachable ⟨by decide, by decide⟩
  exact ⟨x, a, hguard⟩

end LklPort.Semaphore
