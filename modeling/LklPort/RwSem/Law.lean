import LklPort.RwSem.Basic
import Mathlib.Data.List.Lemmas

/-!
# Waiting for a reader-writer semaphore

A waiter at the front of the list waits for a reason: there is none while nobody has the lock, and
while readers have it a writer is the first one. So `__up_read`, which does not look at the flags
of the waiter that it wakes, wakes a writer.
-/

namespace LklPort.RwSem

open List

variable {T : Type}

/-! ### Waking -/

/-- The waiter is not one that could be granted together with readers. -/
def StartsWithWriter (l : List (Waiter T)) : Prop := ∀ w ∈ l.head?, w.mode = .write

/-- A writer alone, or readers up to the first writer. -/
def Wake.Together (w : Wake T) : Prop :=
  (∃ x : Waiter T, x.mode = .write ∧ w.granted = [x]) ∨
    w.granted ≠ [] ∧ (∀ x ∈ w.granted, x.mode = .read) ∧ StartsWithWriter w.left

lemma wakeReaders_eq (l : List (Waiter T)) :
    wakeReaders l = (l.takeWhile (·.mode = .read), l.dropWhile (·.mode = .read)) := by
  induction l with
  | nil => rfl
  | cons w _ ih =>
    match hw : w.mode with
    | .read | .write => simp [wakeReaders, hw, ih]

lemma startsWithWriter_dropWhile (l : List (Waiter T)) :
    StartsWithWriter (l.dropWhile (·.mode = .read)) := by
  intro w hw
  have hnot := head?_dropWhile_not (fun w : Waiter T => decide (w.mode = .read)) l
  rw [hw] at hnot
  match hmode : w.mode with
  | .read => simp [hmode] at hnot
  | .write => rfl

variable {l ws : List (Waiter T)} {mode : Mode} {x : T}
  {w : Waiter T} {m1 : Shared T} {r : Sem T × List (Waiter T)} {q : Pc}

/-- What `__rwsem_do_wake` does. -/
inductive DoWake (sem : Sem T) (wakewrite : Bool) : Sem T × List (Waiter T) → Prop where
  | nobody (hfront : StartsWithWriter sem.waitList) (hlist : wakewrite = true → sem.waitList = []) :
      DoWake sem wakewrite (sem, [])
  | writer (w : Waiter T) (l : List (Waiter T)) (hlist : sem.waitList = w :: l)
      (hw : w.mode = .write) (htrue : wakewrite = true) : DoWake sem wakewrite (⟨-1, l⟩, [w])
  | readers (ws l : List (Waiter T)) (hlist : sem.waitList = ws ++ l) (hne : ws ≠ [])
      (hws : ∀ w ∈ ws, w.mode = .read) (hl : StartsWithWriter l) :
      DoWake sem wakewrite (⟨s32 (sem.activity + ws.length), l⟩, ws)

lemma doWake (sem : Sem T) (wakewrite : Bool) :
    DoWake sem wakewrite (rwsemDoWake sem wakewrite) := by
  match hlist : sem.waitList with
  | [] =>
    simp only [rwsemDoWake, hlist]
    exact .nobody (by simp [hlist, StartsWithWriter]) fun _ => hlist
  | w :: l =>
    match hw : w.mode, wakewrite with
    | .write, false =>
      simp only [rwsemDoWake, hlist, hw]
      refine .nobody (fun x hx => ?_) nofun
      rw [hlist] at hx
      cases hx
      exact hw
    | .write, true =>
      simp only [rwsemDoWake, hlist, hw]
      exact .writer w l hlist hw rfl
    | .read, _ =>
      simp only [rwsemDoWake, hlist, hw, wakeReaders_eq]
      refine .readers _ _ (hlist.trans takeWhile_append_dropWhile.symm) (by simp [hw])
        (fun x hx => ?_) (startsWithWriter_dropWhile _)
      simpa using List.all_eq_true.mp all_takeWhile x hx

lemma DoWake.waitList_eq {sem : Sem T} {wakewrite : Bool} (h : DoWake sem wakewrite r) :
    sem.waitList = r.2 ++ r.1.waitList := by
  cases h with
  | nobody => rfl
  | writer _ _ hlist | readers _ _ hlist => exact hlist

lemma upWrite_doWake (sem : Sem T) : DoWake ⟨(0 : ℕ), sem.waitList⟩ true (upWrite sem) := by
  rw [upWrite]
  split_ifs with hlist
  · exact doWake _ true
  · have hlist : sem.waitList = [] := not_not.mp hlist
    exact .nobody (by simp [hlist, StartsWithWriter]) fun _ => hlist

lemma downgradeWrite_doWake (sem : Sem T) :
    DoWake ⟨(1 : ℕ), sem.waitList⟩ false (downgradeWrite sem) := by
  rw [downgradeWrite]
  split_ifs with hlist
  · exact doWake _ false
  · have hlist : sem.waitList = [] := not_not.mp hlist
    exact .nobody (by simp [hlist, StartsWithWriter]) nofun

/-! ### The lock and those who have it -/

/-- `activity` says who has the lock, and the waiters wait for a reason. -/
structure Sound (sem : Sem T) (holders : Mode → List T) : Prop where
  active : (sem.activity = -1 ∧ (holders .write).length = 1 ∧ holders .read = []) ∨
    (holders .write = [] ∧ sem.activity = (holders .read).length ∧ sem.activity < 2 ^ 31)
  front : 0 < sem.activity → StartsWithWriter sem.waitList
  idle : sem.activity = 0 → sem.waitList = []

lemma s32_eq {x : ℤ} (h : -1 ≤ x) (h' : x < 2 ^ 31) : s32 x = x :=
  Int.bmod_eq_of_le (by omega) (by omega)

variable {sem : Sem T} {holders : Mode → List T}

lemma Sound.read (h : Sound sem holders) (hread : holders .read ≠ []) :
    holders .write = [] ∧ sem.activity = (holders .read).length ∧ sem.activity < 2 ^ 31 :=
  h.active.resolve_left fun hw => hread hw.2.2

lemma Sound.write (h : Sound sem holders) (hwrite : holders .write ≠ []) :
    sem.activity = -1 ∧ (holders .write).length = 1 ∧ holders .read = [] :=
  h.active.resolve_right fun hr => hwrite hr.1

lemma Sound.of_readers {n : ℤ} (hwrite : holders .write = []) (hn : n = (holders .read).length)
    (hlt : n < 2 ^ 31) (hpos : 0 < n) (hl : StartsWithWriter l) : Sound ⟨n, l⟩ holders where
  active := .inr ⟨hwrite, hn, hlt⟩
  front _ := hl
  idle h0 := absurd h0 hpos.ne'

lemma Sound.of_writer (hwrite : (holders .write).length = 1) (hread : holders .read = []) :
    Sound ⟨-1, l⟩ holders where
  active := .inl ⟨rfl, hwrite, hread⟩
  front := nofun
  idle := nofun

lemma Sound.free (hread : holders .read = []) (hwrite : holders .write = []) :
    Sound ⟨0, []⟩ holders where
  active := .inr ⟨hwrite, by rw [hread]; rfl, show (0 : ℤ) < 2 ^ 31 by decide⟩
  front := nofun
  idle _ := rfl

lemma upRead_eq (h : Sound sem holders) (hread : holders .read ≠ []) :
    (upRead sem = (⟨(holders .read).length - 1, sem.waitList⟩, []) ∧
      ((holders .read).length = 1 → sem.waitList = [])) ∨
    ∃ w l, (holders .read).length = 1 ∧ sem.waitList = w :: l ∧ w.mode = .write ∧
      upRead sem = (⟨-1, l⟩, [w]) := by
  obtain ⟨-, hact, hlt⟩ := h.read hread
  have hs32 : s32 (sem.activity - 1) = (holders .read).length - 1 := by
    rw [s32_eq (by omega) (by omega), hact]
  simp only [upRead, hs32]
  match hlist : sem.waitList with
  | [] => exact .inl ⟨if_neg fun hc => hc.2 rfl, fun _ => rfl⟩
  | w :: l =>
    by_cases hone : (holders .read).length = 1
    · have hfront := h.front (by omega) w (by simp [hlist])
      rw [if_pos ⟨by omega, cons_ne_nil w l⟩]
      exact .inr ⟨w, l, hone, rfl, hfront, rfl⟩
    · rw [if_neg fun hc => hone (by omega)]
      exact .inl ⟨rfl, fun h1 => absurd h1 hone⟩

@[simp] lemma Shared.grant_holders (m : Shared T) (ws : List (Waiter T)) (mode : Mode) :
    (m.grant ws).holders mode = (ws.filter (·.mode = mode)).map Waiter.task ++ m.holders mode := rfl

lemma Shared.grant_readers (m : Shared T) (h : ∀ w ∈ ws, w.mode = .read) :
    (m.grant ws).holders .read = ws.map Waiter.task ++ m.holders .read ∧
      (m.grant ws).holders .write = m.holders .write := by
  have hread : ws.filter (·.mode = .read) = ws := List.filter_eq_self.mpr (by simpa using h)
  have hwrite : ws.filter (·.mode = .write) = [] := by
    refine List.filter_eq_nil_iff.mpr fun w hw => ?_
    simp [h w hw]
  rw [grant_holders, grant_holders, hread, hwrite]
  exact ⟨rfl, rfl⟩

lemma Shared.grant_writer (m : Shared T) (h : w.mode = .write) :
    (m.grant [w]).holders .read = m.holders .read ∧
      (m.grant [w]).holders .write = w.task :: m.holders .write := by
  simp [h]

/-! ### What a step keeps -/

/-- The lock is granted at once. -/
def Mode.Free (sem : Sem T) : Mode → Prop
  | .read => sem.activity ≥ 0 ∧ sem.waitList = []
  | .write => sem.activity = 0 ∧ sem.waitList = []

/-- `activity` when the lock has been granted. -/
def Mode.taken (sem : Sem T) : Mode → ℤ
  | .read => s32 (sem.activity + 1)
  | .write => -1

/-- The invariant of the semaphore and its history. -/
structure Good (m : Shared T) : Prop where
  sound : Sound m.sem m.holders
  order : m.blocked = m.wakes.flatMap Wake.granted ++ m.sem.waitList
  together : ∀ w ∈ m.wakes, w.Together

variable {m : Shared T} {t : T}

lemma Good.wake {sem : Sem T} (h : Good m) (hblocked : m1.blocked = m.blocked)
    (hwakes : m1.wakes = m.wakes) (hlist : m.sem.waitList = ws ++ sem.waitList)
    (htogether : ws ≠ [] → Wake.Together ⟨ws, sem.waitList⟩)
    (hsound : Sound sem (m1.grant ws).holders) : Good (m1.wake (sem, ws)) := by
  match ws with
  | [] =>
    refine ⟨hsound, ?_, hwakes ▸ h.together⟩
    change m1.blocked = m1.wakes.flatMap Wake.granted ++ sem.waitList
    rw [hblocked, hwakes, h.order, hlist, nil_append]
  | w :: l =>
    refine ⟨hsound, ?_, fun x hx => ?_⟩
    · change m1.blocked =
        (m1.wakes ++ [Wake.mk (w :: l) sem.waitList]).flatMap Wake.granted ++ sem.waitList
      rw [hblocked, hwakes, h.order, hlist, flatMap_append, flatMap_singleton, append_assoc]
    · change x ∈ m1.wakes ++ [⟨w :: l, sem.waitList⟩] at hx
      rw [hwakes, mem_append, mem_singleton] at hx
      rcases hx with hx | rfl
      · exact h.together x hx
      · exact htogether (cons_ne_nil w l)

/-- Those that `__rwsem_do_wake` wakes get the lock, which no writer has. It wakes a writer only if
no reader has the lock. -/
lemma Good.doWake (h : Good m) (m1 : Shared T) (hblocked : m1.blocked = m.blocked)
    (hwakes : m1.wakes = m.wakes) {wakewrite : Bool} {n : ℕ} (hwrite : m1.holders .write = [])
    (hn : (m1.holders .read).length = n) (hzero : n = 0 ↔ wakewrite = true)
    (hfits : (m.sem.waitList.takeWhile (·.mode = .read)).length + n < 2 ^ 31)
    (hr : DoWake ⟨n, m.sem.waitList⟩ wakewrite r) : Good (m1.wake r) := by
  cases hr with
  | nobody hfront hlist =>
    refine h.wake hblocked hwakes rfl (absurd rfl) ?_
    by_cases h0 : n = 0
    · have hnil : m.sem.waitList = [] := hlist (hzero.mp h0)
      subst h0
      rw [hnil]
      exact .free (by simpa using List.length_eq_zero_iff.mp hn) (by simpa using hwrite)
    · exact .of_readers (by simpa using hwrite) (by simp [hn]) (by omega) (by omega) hfront
  | writer w _ hlist hw htrue =>
    refine h.wake hblocked hwakes hlist (fun _ => .inl ⟨w, hw, rfl⟩) ?_
    obtain ⟨hread, hwrite'⟩ := m1.grant_writer hw
    refine .of_writer (by rw [hwrite', hwrite]; rfl) ?_
    rw [hread]
    exact List.length_eq_zero_iff.mp (hn.trans (hzero.mpr htrue))
  | readers ws _ hlist hne hws hl =>
    refine h.wake hblocked hwakes hlist (fun _ => .inr ⟨hne, hws, hl⟩) ?_
    have hpos := List.length_pos_iff.mpr hne
    have hlen : ws.length + n < 2 ^ 31 := by
      rw [hlist, takeWhile_append_of_pos (by simpa using hws), length_append] at hfits
      omega
    obtain ⟨hread, hwrite'⟩ := m1.grant_readers hws
    rw [s32_eq (by dsimp only; omega) (by dsimp only; omega)]
    refine .of_readers (hwrite'.trans hwrite) ?_ (by dsimp only; omega) (by dsimp only; omega) hl
    rw [hread, length_append, length_map, hn]
    push_cast
    rw [add_comm]

lemma Good.take (h : Good m) (hfree : mode.Free m.sem)
    (hfits : mode = .read → (m.holders .read).length + 1 < 2 ^ 31) :
    Good ({ m with sem := { m.sem with activity := mode.taken m.sem } }.grant [⟨t, mode⟩]) := by
  refine ⟨?_, h.order, h.together⟩
  rcases h.sound.active with ⟨hneg, -, -⟩ | ⟨hwrite, hact, hlt⟩
  · cases mode with
    | read | write => exact absurd hfree.1 (by omega)
  · cases mode with
    | read =>
      have hfits := hfits rfl
      have htaken : Mode.read.taken m.sem = (m.holders .read).length + 1 := by
        rw [Mode.taken, hact]
        exact s32_eq (by omega) (by omega)
      change Sound ⟨Mode.read.taken m.sem, m.sem.waitList⟩ _
      rw [htaken, hfree.2]
      exact .of_readers (by simpa using hwrite) (by simp) (by omega) (by omega) nofun
    | write =>
      have hread : m.holders .read = [] := List.length_eq_zero_iff.mp (by have := hfree.1; omega)
      exact .of_writer (by simp [hwrite]) (by simp [hread])

lemma Good.block (h : Good m) (hfree : ¬ mode.Free m.sem) : Good { m with
      sem := { m.sem with waitList := m.sem.waitList ++ [⟨t, mode⟩] }
      blocked := m.blocked ++ [⟨t, mode⟩] } := by
  refine ⟨⟨h.sound.active, fun hpos => ?_, fun hidle => ?_⟩, ?_, h.together⟩
  · have hfront := h.sound.front hpos
    match hlist : m.sem.waitList with
    | [] =>
      cases mode with
      | read => exact absurd ⟨hpos.le, hlist⟩ hfree
      | write => simp [StartsWithWriter]
    | w :: l =>
      intro x hx
      apply hfront x
      rw [hlist]
      exact hx
  · have hlist := h.sound.idle hidle
    cases mode with
    | read => exact absurd ⟨hidle.ge, hlist⟩ hfree
    | write => exact absurd ⟨hidle, hlist⟩ hfree
  · rw [h.order, append_assoc]

/-! ### Sleeping tasks -/

/-- A waiter on the list is that of a sleeping task, and a task that sleeps is on the list or has
been granted the lock. -/
def Asleep (m : Shared T) (t : T) (p : Pc) : Prop :=
  ∀ mode, ((⟨t, mode⟩ : Waiter T) ∈ m.sem.waitList → p = .waiting mode) ∧
    (p = .waiting mode → (⟨t, mode⟩ : Waiter T) ∈ m.sem.waitList ∨ t ∈ m.holders mode)

lemma wakes_front (sem : Sem T) : sem.waitList = (upRead sem).2 ++ (upRead sem).1.waitList ∧
    sem.waitList = (upWrite sem).2 ++ (upWrite sem).1.waitList ∧
    sem.waitList = (downgradeWrite sem).2 ++ (downgradeWrite sem).1.waitList := by
  refine ⟨?_, (upWrite_doWake sem).waitList_eq, (downgradeWrite_doWake sem).waitList_eq⟩
  simp only [upRead]
  split_ifs with hwake
  · match hlist : sem.waitList with
    | [] => exact absurd hlist hwake.2
    | w :: l => rfl
  · rfl

lemma Shared.wake_sem (m : Shared T) (r : Sem T × List (Waiter T)) : (m.wake r).sem = r.1 := by
  obtain ⟨sem, _ | ⟨w, l⟩⟩ := r <;> rfl

lemma Shared.wake_holders (m : Shared T) (r : Sem T × List (Waiter T)) :
    (m.wake r).holders = (m.grant r.2).holders := by
  obtain ⟨sem, _ | ⟨w, l⟩⟩ := r <;> rfl

lemma Shared.mem_grant (h : (⟨x, mode⟩ : Waiter T) ∈ ws ∨ x ∈ m.holders mode) :
    x ∈ (m.grant ws).holders mode := by
  rw [grant_holders, mem_append]
  refine h.imp (fun hx => ?_) id
  exact List.mem_map.mpr ⟨⟨x, mode⟩, List.mem_filter.mpr ⟨hx, by simp⟩, rfl⟩

lemma Asleep.wake (h : Asleep m x q) (hlist : m.sem.waitList = r.2 ++ r.1.waitList)
    (hholders : q ≠ .running → ∀ mode, x ∈ m.holders mode → x ∈ m1.holders mode) :
    Asleep (m1.wake r) x q := by
  intro mode
  rw [Shared.wake_sem, Shared.wake_holders]
  refine ⟨fun hx => (h mode).1 (hlist ▸ mem_append_right _ hx), fun hq => ?_⟩
  have hx := (h mode).2 hq
  rw [hlist, mem_append] at hx
  rcases hx with (hx | hx) | hx
  · exact .inr (Shared.mem_grant (.inl hx))
  · exact .inl hx
  · exact .inr (Shared.mem_grant (.inr (hholders (by rw [hq]; nofun) mode hx)))

lemma Asleep.block (h : Asleep m x q) (hne : x ≠ t) : Asleep { m with
      sem := { m.sem with waitList := m.sem.waitList ++ [⟨t, mode⟩] }
      blocked := m.blocked ++ [⟨t, mode⟩] } x q := by
  intro mode'
  refine ⟨fun hx => ?_, fun hq => ((h mode').2 hq).imp (mem_append_left _) id⟩
  rcases List.mem_append.mp hx with hx | hx
  · exact (h mode').1 hx
  · cases List.mem_singleton.mp hx
    exact absurd rfl hne

lemma Asleep.running (h : ∀ mode, (⟨t, mode⟩ : Waiter T) ∉ m.sem.waitList) :
    Asleep m t .running := fun mode => ⟨fun hmem => absurd hmem (h mode), nofun⟩

/-!
## The law of the reader-writer semaphore

The tasks are interleaved in any way. The law holds as long as no reader is let in beyond
`INT_MAX`, where `activity` wraps around.
-/

open Interleaving

variable {m' : Shared T}

/-! ### Steps of a task -/

variable [DecidableEq T]

@[simp] lemma Shared.drop_self (m : Shared T) (mode : Mode) (t : T) :
    (m.drop mode t).holders mode = (m.holders mode).erase t := Function.update_self ..

variable {mode' : Mode} {p p' : Pc} {a : Act}

@[simp] lemma Shared.drop_of_ne (m : Shared T) (h : mode' ≠ mode) (t : T) :
    (m.drop mode t).holders mode' = m.holders mode' := Function.update_of_ne h ..

/-- What a task does. -/
inductive Step (m : Shared T) (t : T) : Pc → Act → Shared T → Pc → Prop
  | take (mode : Mode) (a : Act) (ha : a = .downRead ∨ a = .downReadTrylock ∨ mode = .write)
      (h : mode.Free m.sem) :
      Step m t .running a
        ({ m with sem := { m.sem with activity := mode.taken m.sem } }.grant [⟨t, mode⟩]) .running
  | block (mode : Mode) (a : Act) (h : ¬ mode.Free m.sem) :
      Step m t .running a { m with
        sem := { m.sem with waitList := m.sem.waitList ++ [⟨t, mode⟩] }
        blocked := m.blocked ++ [⟨t, mode⟩] } (.waiting mode)
  | fail (a : Act) : Step m t .running a m .running
  | upRead (h : t ∈ m.holders .read) :
      Step m t .running .upRead ((m.drop .read t).wake (upRead m.sem)) .running
  | upWrite (h : t ∈ m.holders .write) :
      Step m t .running .upWrite ((m.drop .write t).wake (upWrite m.sem)) .running
  | downgradeWrite (h : t ∈ m.holders .write) :
      Step m t .running .downgradeWrite
        (((m.drop .write t).grant [⟨t, .read⟩]).wake (downgradeWrite m.sem)) .running
  | proceed (mode : Mode) (h : (⟨t, mode⟩ : Waiter T) ∉ m.sem.waitList) :
      Step m t (.waiting mode) .proceed m .running

lemma step_of_exec {m m' : Shared T} {t : T} (h : exec m t p a = some (m', p')) :
    Step m t p a m' p' := by
  unfold exec at h
  split at h
  case h_1 =>
    by_cases hfree : m.sem.activity ≥ 0 ∧ m.sem.waitList = []
    · rw [downRead, if_pos hfree] at h
      cases h
      exact .take .read _ (.inl rfl) hfree
    · rw [downRead, if_neg hfree] at h
      cases h
      exact .block .read _ hfree
  case h_2 =>
    by_cases hfree : m.sem.activity ≥ 0 ∧ m.sem.waitList = []
    · rw [downReadTrylock, if_pos hfree] at h
      cases h
      exact .take .read _ (.inr (.inl rfl)) hfree
    · rw [downReadTrylock, if_neg hfree] at h
      cases h
      exact .fail _
  case h_3 =>
    by_cases hfree : m.sem.activity = 0 ∧ m.sem.waitList = []
    · rw [downWrite, if_pos hfree] at h
      cases h
      exact .take .write _ (.inr (.inr rfl)) hfree
    · rw [downWrite, if_neg hfree] at h
      cases h
      exact .block .write _ hfree
  case h_4 =>
    by_cases hfree : m.sem.activity = 0 ∧ m.sem.waitList = []
    · rw [downWriteTrylock, if_pos hfree] at h
      cases h
      exact .take .write _ (.inr (.inr rfl)) hfree
    · rw [downWriteTrylock, if_neg hfree] at h
      cases h
      exact .fail _
  case h_5 =>
    split_ifs at h with ht
    cases h
    exact .upRead ht
  case h_6 =>
    split_ifs at h with ht
    cases h
    exact .upWrite ht
  case h_7 =>
    split_ifs at h with ht
    cases h
    exact .downgradeWrite ht
  case h_8 mode =>
    split_ifs at h with ht
    cases h
    exact .proceed mode ht
  case h_9 => cases h

/-- No reader is let in beyond `INT_MAX`. -/
def Fits (m : Shared T) : Act → Prop
  | .downRead | .downReadTrylock => (m.holders .read).length + 1 < 2 ^ 31
  | .upWrite => (m.sem.waitList.takeWhile (·.mode = .read)).length < 2 ^ 31
  | .downgradeWrite => (m.sem.waitList.takeWhile (·.mode = .read)).length + 1 < 2 ^ 31
  | _ => True

instance (m : Shared T) (a : Act) : Decidable (Fits m a) := by
  cases a <;> dsimp only [Fits] <;> infer_instance

lemma Good.upRead (h : Good m) (ht : t ∈ m.holders .read) :
    Good ((m.drop .read t).wake (upRead m.sem)) := by
  have hread := ne_nil_of_mem ht
  obtain ⟨hwrite, hact, hlt⟩ := h.sound.read hread
  have hlen := length_erase_of_mem ht
  have hdrop : (m.drop .read t).holders .write = [] := by simpa using hwrite
  rcases upRead_eq h.sound hread with ⟨heq, hnone⟩ | ⟨w, l, hone, hlist, hw, heq⟩
  · rw [heq]
    refine h.wake rfl rfl rfl (absurd rfl) ?_
    by_cases hone : (m.holders .read).length = 1
    · rw [hone, hnone hone]
      have hnil : (m.holders .read).erase t = [] := List.length_eq_zero_iff.mp (by omega)
      exact .free (by simpa using hnil) (by simpa using hdrop)
    · have hpos := List.length_pos_iff.mpr hread
      refine .of_readers (by simpa using hdrop) ?_ (by omega) (by omega) (h.sound.front (by omega))
      simp [hlen]
      omega
  · rw [heq]
    refine h.wake rfl rfl hlist (fun _ => .inl ⟨w, hw, rfl⟩) ?_
    obtain ⟨hr, hwr⟩ := (m.drop .read t).grant_writer hw
    refine .of_writer (by rw [hwr, hdrop]; rfl) ?_
    rw [hr, Shared.drop_self]
    exact List.length_eq_zero_iff.mp (by omega)

lemma Good.last_writer (h : Good m) (ht : t ∈ m.holders .write) :
    m.holders .read = [] ∧ (m.drop .write t).holders .write = [] := by
  obtain ⟨-, hone, hread⟩ := h.sound.write (ne_nil_of_mem ht)
  have hlen := length_erase_of_mem ht
  exact ⟨hread, (m.drop_self .write t).trans (List.length_eq_zero_iff.mp (by omega))⟩

lemma Good.upWrite (h : Good m) (ht : t ∈ m.holders .write) (hfits : Fits m .upWrite) :
    Good ((m.drop .write t).wake (upWrite m.sem)) := by
  obtain ⟨hread, hnil⟩ := h.last_writer ht
  exact h.doWake (m.drop .write t) rfl rfl hnil (by simp [hread]) (by simp) hfits
    (upWrite_doWake m.sem)

lemma Good.downgradeWrite (h : Good m) (ht : t ∈ m.holders .write)
    (hfits : Fits m .downgradeWrite) :
    Good (((m.drop .write t).grant [⟨t, .read⟩]).wake (downgradeWrite m.sem)) := by
  obtain ⟨hread, hnil⟩ := h.last_writer ht
  exact h.doWake ((m.drop .write t).grant [⟨t, .read⟩]) rfl rfl hnil (by simp [hread]) (by simp)
    hfits (downgradeWrite_doWake m.sem)

lemma Good.step (h : Good m) (hstep : Step m t p a m' p') (hfits : Fits m a) : Good m' := by
  cases hstep with
  | take _ _ ha hfree =>
    apply h.take hfree
    rintro rfl
    rcases ha with rfl | rfl | hmode
    · exact hfits
    · exact hfits
    · cases hmode
  | block _ _ hfree => exact h.block hfree
  | fail | proceed => exact h
  | upRead ht => exact h.upRead ht
  | upWrite ht => exact h.upWrite ht hfits
  | downgradeWrite ht => exact h.downgradeWrite ht hfits

/-! ### Sleeping tasks -/

lemma Asleep.drop {x : T} (hne : x ≠ t) (h : x ∈ m.holders mode') :
    x ∈ (m.drop mode t).holders mode' := by
  by_cases hmode : mode' = mode
  · subst hmode
    rw [Shared.drop_self]
    exact (mem_erase_of_ne hne).mpr h
  · rwa [Shared.drop_of_ne m hmode]

lemma asleep_outline : (program T).Outline (fun _ => True) Asleep where
  own {m t p a m' p'} hexec _ h := by
    refine ⟨trivial, ?_⟩
    obtain ⟨hread, hwrite, hdown⟩ := wakes_front m.sem
    cases step_of_exec hexec with
    | take =>
      exact .running fun mode' hmem => nomatch (h mode').1 hmem
    | block =>
      intro mode'
      refine ⟨fun hx => ?_, fun hq => ?_⟩
      · rcases List.mem_append.mp hx with hx | hx
        · cases (h mode').1 hx
        · cases List.mem_singleton.mp hx
          rfl
      · cases hq
        exact .inl (mem_append_right _ (mem_singleton_self _))
    | fail => exact h
    | upRead => exact h.wake hread (absurd rfl)
    | upWrite => exact h.wake hwrite (absurd rfl)
    | downgradeWrite => exact h.wake hdown (absurd rfl)
    | proceed _ hmem =>
      refine .running fun mode' hmem' => ?_
      cases (h mode').1 hmem'
      exact hmem hmem'
  other {m t p a m' p'} hexec _ _ {x q} hne h := by
    obtain ⟨hread, hwrite, hdown⟩ := wakes_front m.sem
    cases step_of_exec hexec with
    | take =>
      exact fun mode' => ⟨(h mode').1, fun hq => ((h mode').2 hq).imp id fun hx =>
        Shared.mem_grant (.inr hx)⟩
    | block => exact h.block hne
    | fail | proceed => exact h
    | upRead => exact h.wake hread fun _ _ => Asleep.drop hne
    | upWrite => exact h.wake hwrite fun _ _ => Asleep.drop hne
    | downgradeWrite =>
      exact h.wake hdown fun _ _ hx => Shared.mem_grant (.inr (Asleep.drop hne hx))

/-! ### The law -/

/-- What is true of a semaphore and its tasks at any time. -/
structure RwsemLaw (s : State (Shared T) T Pc) : Prop where
  writing : s.shared.sem.activity = -1 ↔
    (s.shared.holders .write).length = 1 ∧ s.shared.holders .read = []
  reading : s.shared.sem.activity ≠ -1 →
    s.shared.holders .write = [] ∧ s.shared.sem.activity = (s.shared.holders .read).length
  /-- Blocked requests are granted in the order of their arrival. -/
  order : s.shared.blocked = s.shared.wakes.flatMap Wake.granted ++ s.shared.sem.waitList
  together : ∀ w ∈ s.shared.wakes, w.Together
  front : 0 < s.shared.sem.activity → StartsWithWriter s.shared.sem.waitList
  idle : s.shared.sem.activity = 0 → s.shared.sem.waitList = []
  /-- `__up_read` wakes writers only. -/
  wakesWriter : s.shared.holders .read ≠ [] → ∀ w ∈ (upRead s.shared.sem).2, w.mode = .write
  asleep : ∀ t, Asleep s.shared t (s.pc t)

lemma Good.reachable {s : State (Shared T) T Pc}
    (h : ((machine T).restrict fun s a => Fits s.shared a.2).Reachable s) : Good s.shared := by
  refine h.invariant (I := fun s => Good s.shared)
    ⟨.free rfl rfl, rfl, fun _ hw => absurd hw not_mem_nil⟩ fun s a hs ha => ?_
  obtain ⟨m, p, hexec, hnext⟩ := exists_exec ha.1
  change Good ((machine T).next s a).shared
  rw [machine, hnext]
  exact hs.step (step_of_exec hexec) ha.2

/-- In every run in which no reader is let in beyond `INT_MAX`. -/
theorem rwsem_law {s : State (Shared T) T Pc}
    (h : ((machine T).restrict fun s a => Fits s.shared a.2).Reachable s) : RwsemLaw s := by
  have hgood := Good.reachable h
  obtain ⟨-, hasleep⟩ := asleep_outline.holds trivial
    (fun t => .running fun _ => not_mem_nil) h.of_restrict
  refine ⟨⟨fun hneg => ?_, fun hw => ?_⟩, fun hne => ?_, hgood.order, hgood.together,
    hgood.sound.front, hgood.sound.idle, fun hread w hw => ?_, hasleep⟩
  · rcases hgood.sound.active with hw | ⟨-, hact, -⟩
    · exact hw.2
    · omega
  · rcases hgood.sound.active with hact | ⟨hnil, -, -⟩
    · exact hact.1
    · rw [hnil] at hw
      cases hw.1
  · obtain ⟨hnil, hact, -⟩ := hgood.sound.active.resolve_left fun hw => hne hw.1
    exact ⟨hnil, hact⟩
  · rcases upRead_eq hgood.sound hread with ⟨heq, -⟩ | ⟨x, l, -, -, hx, heq⟩
    · rw [heq] at hw
      exact absurd hw not_mem_nil
    · rw [heq] at hw
      cases List.mem_singleton.mp hw
      exact hx

/-- Task 0 writes, readers and a writer wait, and the lock is downgraded. -/
def downgradeRun : List (ℕ × Act) :=
  [(0, .downWrite), (1, .downRead), (2, .downRead), (3, .downWrite), (4, .downRead),
    (0, .downgradeWrite), (1, .proceed), (1, .upRead)]

theorem rwsem_law_downgradeRun : RwsemLaw ((machine ℕ).runFrom (machine ℕ).init downgradeRun) ∧
      ((machine ℕ).runFrom (machine ℕ).init downgradeRun).shared.sem.activity = 2 := by
  have hadm : ((machine ℕ).restrict fun s a => Fits s.shared a.2).Admits (machine ℕ).init
      downgradeRun := by decide +kernel
  exact ⟨rwsem_law (Machine.Reachable.init.runFrom hadm), by decide +kernel⟩

/-! ### Too many readers -/

/-- A single task can have a read lock many times. -/
lemma exists_readers (n : ℕ) (hn : n ≤ 2 ^ 31) :
    ∃ s, (machine Unit).Reachable s ∧ (s.shared.holders .read).length = n ∧
      s.shared.sem = ⟨s32 n, []⟩ ∧ s.pc () = .running := by
  induction n with
  | zero => exact ⟨_, .init, rfl, rfl, rfl⟩
  | succ n ih =>
    obtain ⟨s, hs, hlen, hsem, hpc⟩ := ih (by omega)
    have hact : s32 n = n := s32_eq (by omega) (by omega)
    have hexec : exec s.shared () (s.pc ()) .downRead = some
        ({ s.shared with sem := ⟨s32 (n + 1), []⟩ }.grant [⟨(), .read⟩], .running) := by
      rw [hpc]
      simp only [exec, downRead, hsem, hact]
      rfl
    have hguard : (machine Unit).guard s ((), .downRead) :=
      Option.isSome_iff_exists.mpr ⟨_, hexec⟩
    have hnext : (machine Unit).next s ((), .downRead) = s.set
        ({ s.shared with sem := ⟨s32 (n + 1), []⟩ }.grant [⟨(), .read⟩]) () .running := by
      simp only [machine, Interleaving.machine, program, hexec]
    refine ⟨_, hs.step ((), .downRead) hguard, ?_⟩
    rw [hnext]
    exact ⟨by simp [hlen], by simp [Shared.grant], State.pc_set_self ..⟩

/-- The read lock after `INT_MAX` of them makes `activity` negative. -/
theorem too_many_readers : ∃ s, (machine Unit).Reachable s ∧ ¬ RwsemLaw s := by
  obtain ⟨s, hs, hlen, hsem, -⟩ := exists_readers (2 ^ 31) le_rfl
  have hact : s.shared.sem.activity = -2 ^ 31 := by
    rw [hsem]
    decide
  refine ⟨s, hs, fun hlaw => ?_⟩
  have hread := (hlaw.reading (by omega)).2
  omega

end LklPort.RwSem
